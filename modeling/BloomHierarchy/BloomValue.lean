import BloomHierarchy.Basic
import BloomHierarchy.Lib.BitPacking
import BloomHierarchy.Lib.PositionFilter

/-!
# The two filter classes

`bloom_value` (the program) and `bloom_valueWM` (its copy inside LevelDB) have
the same members in a different order and the same member functions. Each
function is written once over the number of hash functions and the bit array;
the two classes apply it to their own members.

The size `N` of the bit array is a compile-time constant of the source that
is edited by hand between experiments, so it is a parameter. `hash` stands for
`std::hash<std::string>`.

Results:
1. `existsKey_iff_accepts`: `exists` is acceptance of the set of set bits, so
   it is monotone in the bits (`existsKey_mono`).
2. `insertAll_positions`: inserting keys into a filter adds their probes and
   nothing else; `existsKey_insertAll`: no false negatives.
3. `existsKeys_iff`: `exists(key[])` takes the length of the first string for the
   number of strings; when its answer is still right.
4. `filter_file_round_trip`: what one class saves, the other one loads.
-/

namespace BloomHierarchy

open BitPacking PositionFilter

/-! ## The code of both classes -/

section Probes
variable (hash : Bytes → UInt64) (N : Nat)

/-- `std::hash<std::string>{}(key + std::to_string(i)) % bitArray.size()`. -/
def probe (key : Bytes) (i : Nat) : Nat :=
  (hash (key ++ toDecimal i)).toNat % N

/-- The positions that the first `k` hash functions give a key. -/
def probes (k : Nat) (key : Bytes) : Set Nat :=
  {p | ∃ i < k, p = probe hash N key i}

theorem probe_lt {N : Nat} (hN : 0 < N) (key : Bytes) (i : Nat) : probe hash N key i < N :=
  Nat.mod_lt _ hN

end Probes

/-- A small hash function, for evaluation on concrete inputs. -/
def polyHash (s : Bytes) : UInt64 :=
  s.foldl (fun h c => h * 31 + c.toUInt64) 7

section Bits
variable (hash : Bytes → UInt64) {N : Nat}

/-- The loop of `insert`. -/
def insertBits (k : Nat) (bits : BitVec N) (key : Bytes) : BitVec N :=
  (List.range k).foldl (fun bits i => setBit bits (probe hash N key i) true) bits

/-- The loop of `exists`. -/
def existsBits (k : Nat) (bits : BitVec N) (key : Bytes) : Bool :=
  (List.range k).all fun i => bits.getLsbD (probe hash N key i)

/-- The four bytes of an `int` that is not negative, as the machine stores it. -/
def intBytes (n : Nat) : Bytes :=
  (List.range 4).map fun i => (n / 256 ^ i).toUInt8

/-- What `saveToFile` writes: the number of hash functions, then the bits. -/
def savedBytes (k : Nat) (bits : BitVec N) : Bytes :=
  intBytes k ++ packBits bits.getLsbD N (List.replicate ((N + 7) / 8) 0)

/-- The buffer after the two reads of `loadFromFile`. A read that finds too
few bytes stores those it finds and makes the next read do nothing, and the
buffer starts out as zeros. -/
def readBuffer (N : Nat) (contents : Bytes) : Bytes :=
  let size := (N + 7) / 8
  let found := if contents.length < 4 then [] else (contents.drop 4).take size
  found ++ List.replicate (size - found.length) 0

/-- The bits `loadFromFile` returns. The number of hash functions it reads goes
into a local variable that nothing uses. -/
def loadedBits (N : Nat) (contents : Bytes) : BitVec N :=
  unpackBits N (readBuffer N contents)

/-- The message of the exception `loadFromFile` throws. -/
def openError (filename : Bytes) : Bytes :=
  ascii ['E', 'r', 'r', 'o', 'r', ' ', 'o', 'p', 'e', 'n', 'i', 'n', 'g', ' ',
    'f', 'i', 'l', 'e', ':', ' '] ++ filename

end Bits

/-- The initialiser of `numHashFunctions` in both classes. -/
def initialHashFunctions : Nat := 3

theorem initialHashFunctions_eq : initialHashFunctions = 3 := rfl

/-! ## bloom_value -/

/-- The class `bloom_value`. `numHashFunctions` is a private member that no
function assigns. -/
structure BloomValue (N : Nat) where
  numHashFunctions : Nat := initialHashFunctions
  bitArray : BitVec N := 0#N
  fixed : numHashFunctions = 3 := by exact initialHashFunctions_eq
deriving DecidableEq

namespace BloomValue
variable (hash : Bytes → UInt64) {N : Nat}

def insert (f : BloomValue N) (key : Bytes) : BloomValue N :=
  { f with bitArray := insertBits hash f.numHashFunctions f.bitArray key }

def existsKey (f : BloomValue N) (key : Bytes) : Bool :=
  existsBits hash f.numHashFunctions f.bitArray key

/-- The loop of `exists(key[])` from index `i` on, with `rounds` rounds to go;
`none` is a read outside the array. -/
def existsKeysFrom (f : BloomValue N) (key : List Bytes) : Nat → Nat → Option Bool
  | 0, _ => some false
  | rounds + 1, i =>
    match key[i]? with
    | none => none
    | some k => if f.existsKey hash k then some true else existsKeysFrom f key rounds (i + 1)

/-- `exists(key[])` on an array of strings. The bound `key->length()` of its loop
is the length of the first string. -/
def existsKeys (f : BloomValue N) (key : List Bytes) : Option Bool :=
  match key[0]? with
  | none => none
  | some first => existsKeysFrom hash f key first.length 0

def saveToFile (f : BloomValue N) (d : Directory) (filename : Bytes) : Directory :=
  d.write filename (savedBytes f.numHashFunctions f.bitArray)

def loadFromFile (N : Nat) (d : Directory) (filename : Bytes) : Except Bytes (BloomValue N) :=
  match d.read? filename with
  | none => .error (openError filename)
  | some contents => .ok { bitArray := loadedBits N contents }

/-- Opening the file for writing truncates it. -/
def createFile (d : Directory) (filename : Bytes) : Directory :=
  d.write filename []

end BloomValue

/-! ## bloom_valueWM -/

/-- The class `bloom_valueWM`. -/
structure BloomValueWM (N : Nat) where
  bitArray : BitVec N := 0#N
  numHashFunctions : Nat := initialHashFunctions
  fixed : numHashFunctions = 3 := by exact initialHashFunctions_eq
deriving DecidableEq

namespace BloomValueWM
variable (hash : Bytes → UInt64) {N : Nat}

def insert (f : BloomValueWM N) (key : Bytes) : BloomValueWM N :=
  { f with bitArray := insertBits hash f.numHashFunctions f.bitArray key }

def existsKey (f : BloomValueWM N) (key : Bytes) : Bool :=
  existsBits hash f.numHashFunctions f.bitArray key

def saveToFile (f : BloomValueWM N) (d : Directory) (filename : Bytes) : Directory :=
  d.write filename (savedBytes f.numHashFunctions f.bitArray)

def loadFromFile (N : Nat) (d : Directory) (filename : Bytes) : Except Bytes (BloomValueWM N) :=
  match d.read? filename with
  | none => .error (openError filename)
  | some contents => .ok { bitArray := loadedBits N contents }

def createFile (d : Directory) (filename : Bytes) : Directory :=
  d.write filename []

end BloomValueWM

/-! ## Filters as sets of positions -/

section Positions
variable {hash : Bytes → UInt64} {N : Nat}

/-- The positions of the set bits. -/
def positions (bits : BitVec N) : Set Nat :=
  {p | bits.getLsbD p = true}

@[simp] theorem positions_zero : positions 0#N = ∅ := by
  ext p
  simp [positions]

@[simp] theorem positions_or (a b : BitVec N) :
    positions (a ||| b) = positions a ∪ positions b := by
  ext p
  simp [positions, BitVec.getLsbD_or]

theorem positions_injective {a b : BitVec N} (h : positions a = positions b) : a = b := by
  apply BitVec.eq_of_getLsbD_eq
  intro p _
  have hp : p ∈ positions a ↔ p ∈ positions b := by rw [h]
  exact Bool.eq_iff_iff.mpr hp

theorem positions_setBit {bits : BitVec N} {i : Nat} (hi : i < N) :
    positions (setBit bits i true) = insert i (positions bits) := by
  ext p
  simp only [positions, Set.mem_ofPred_eq, Set.mem_insert_iff, getLsbD_setBit _ hi]
  by_cases hp : p = i
  · simp [hp]
  · simp [hp]

theorem existsBits_iff {k : Nat} {bits : BitVec N} {key : Bytes} :
    existsBits hash k bits key = true ↔ Accepts (probes hash N k) (positions bits) key := by
  rw [existsBits, List.all_eq_true]
  constructor
  · rintro h p ⟨i, hi, rfl⟩
    exact h i (List.mem_range.mpr hi)
  · intro h i hi
    exact h ⟨i, List.mem_range.mp hi, rfl⟩

theorem positions_insertBits (hash : Bytes → UInt64) (hN : 0 < N) (k : Nat) (bits : BitVec N)
    (key : Bytes) :
    positions (insertBits hash k bits key) = positions bits ∪ probes hash N k key := by
  induction k with
  | zero =>
    ext p
    simp [insertBits, probes]
  | succ k ih =>
    have hstep : insertBits hash (k + 1) bits key =
        setBit (insertBits hash k bits key) (probe hash N key k) true := by
      simp [insertBits, List.range_succ]
    rw [hstep, positions_setBit (probe_lt hash hN key k), ih]
    ext p
    simp only [probes, Set.mem_insert_iff, Set.mem_union, Set.mem_ofPred_eq,
      Nat.lt_succ_iff_lt_or_eq]
    constructor
    · rintro (hp | hp | ⟨i, hi, hp⟩)
      · exact .inr ⟨k, .inr rfl, hp⟩
      · exact .inl hp
      · exact .inr ⟨i, .inl hi, hp⟩
    · rintro (hp | ⟨i, hi | rfl, hp⟩)
      · exact .inr (.inl hp)
      · exact .inr (.inr ⟨i, hi, hp⟩)
      · exact .inl hp

end Positions

namespace BloomValue
variable {hash : Bytes → UInt64} {N : Nat}

/-- Two filters with the same bits are the same filter. -/
@[ext] theorem ext {f g : BloomValue N} (h : f.bitArray = g.bitArray) : f = g := by
  obtain ⟨k, b, hk⟩ := f
  obtain ⟨k', b', hk'⟩ := g
  subst hk hk'
  cases h
  rfl

/-- `exists` is acceptance of the set of set bits by the three probes. -/
theorem existsKey_iff_accepts {f : BloomValue N} {key : Bytes} :
    f.existsKey hash key = true ↔ Accepts (probes hash N 3) (positions f.bitArray) key := by
  rw [existsKey, f.fixed]
  exact existsBits_iff

theorem existsKey_mono {f g : BloomValue N} {key : Bytes}
    (h : positions f.bitArray ⊆ positions g.bitArray) (hf : f.existsKey hash key = true) :
    g.existsKey hash key = true :=
  existsKey_iff_accepts.mpr ((existsKey_iff_accepts.mp hf).mono h)

/-- Insert a list of keys, in order. -/
def insertAll (hash : Bytes → UInt64) (f : BloomValue N) (keys : List Bytes) : BloomValue N :=
  keys.foldl (fun f key => f.insert hash key) f

theorem insert_positions (hN : 0 < N) (f : BloomValue N) (key : Bytes) :
    positions (f.insert hash key).bitArray = positions f.bitArray ∪ probes hash N 3 key := by
  have h := positions_insertBits hash hN f.numHashFunctions f.bitArray key
  rw [f.fixed] at h
  rw [← h, ← f.fixed]
  rfl

theorem insertAll_positions (hN : 0 < N) (f : BloomValue N) (keys : List Bytes) :
    positions (f.insertAll hash keys).bitArray =
      positions f.bitArray ∪ built (probes hash N 3) keys := by
  induction keys generalizing f with
  | nil => simp [insertAll, built_nil]
  | cons key keys ih =>
    have hstep : f.insertAll hash (key :: keys) = (f.insert hash key).insertAll hash keys := rfl
    rw [hstep, ih, insert_positions hN, built_cons, Set.union_assoc]

/-- No false negatives: every inserted key is accepted. -/
theorem existsKey_insertAll (hN : 0 < N) {f : BloomValue N} {keys : List Bytes} {key : Bytes}
    (h : key ∈ keys) : (f.insertAll hash keys).existsKey hash key = true := by
  rw [existsKey_iff_accepts, insertAll_positions hN]
  exact (accepts_built_of_mem h).mono Set.subset_union_right

/-! ## Searching for any of several keys -/

/-- The loop finds an accepted string among the `rounds` strings from `i` on, and
without one it runs to its end or out of the array. -/
theorem existsKeysFrom_eq (f : BloomValue N) (key : List Bytes) (rounds i : Nat) :
    existsKeysFrom hash f key rounds i =
      if ((key.drop i).take rounds).any (f.existsKey hash) then some true
      else if rounds ≤ key.length - i then some false else none := by
  induction rounds generalizing i with
  | zero => simp [existsKeysFrom]
  | succ rounds ih =>
    rw [existsKeysFrom]
    cases hi : key[i]? with
    | none =>
      have hlen : key.length ≤ i := List.getElem?_eq_none_iff.mp hi
      have hout : ¬ rounds + 1 ≤ key.length - i := by omega
      simp [List.drop_eq_nil_of_le hlen, hout]
    | some k =>
      obtain ⟨hlt, rfl⟩ := List.getElem?_eq_some_iff.mp hi
      have hrest : rounds + 1 ≤ key.length - i ↔ rounds ≤ key.length - (i + 1) := by omega
      rw [List.drop_eq_getElem_cons hlt, List.take_succ_cons, List.any_cons]
      cases haccept : f.existsKey hash key[i] with
      | true => simp [haccept]
      | false =>
        simp only [haccept, Bool.false_or, hrest]
        exact ih (i + 1)

theorem existsKeys_eq (f : BloomValue N) (first : Bytes) (rest : List Bytes) :
    f.existsKeys hash (first :: rest) =
      if ((first :: rest).take first.length).any (f.existsKey hash) then some true
      else if first.length ≤ (first :: rest).length then some false else none :=
  existsKeysFrom_eq f (first :: rest) first.length 0

/-- `exists(key[])` stays inside the array and says whether some string is
accepted exactly if an accepted string stands before the index `key->length()`, or
none is accepted and `key->length()` is at most the number of strings. -/
theorem existsKeys_iff (hash : Bytes → UInt64) (f : BloomValue N) (first : Bytes)
    (rest : List Bytes) :
    (∃ answer, f.existsKeys hash (first :: rest) = some answer ∧
      (answer = true ↔ ∃ k ∈ first :: rest, f.existsKey hash k = true)) ↔
      (∃ k ∈ (first :: rest).take first.length, f.existsKey hash k = true) ∨
      (∀ k ∈ first :: rest, f.existsKey hash k = false) ∧
        first.length ≤ (first :: rest).length := by
  rw [existsKeys_eq]
  by_cases hfound : ((first :: rest).take first.length).any (f.existsKey hash) = true
  · have hbefore := List.any_eq_true.mp hfound
    obtain ⟨k, hk, haccept⟩ := hbefore
    rw [if_pos hfound]
    refine iff_of_true ⟨true, rfl, fun _ => ?_, fun _ => rfl⟩ (.inl ⟨k, hk, haccept⟩)
    exact ⟨k, List.mem_of_mem_take hk, haccept⟩
  · have hnone : ¬ ∃ k ∈ (first :: rest).take first.length, f.existsKey hash k = true :=
      fun h => hfound (List.any_eq_true.mpr h)
    rw [if_neg hfound, or_iff_right hnone]
    by_cases hlen : first.length ≤ (first :: rest).length
    · rw [if_pos hlen]
      constructor
      · rintro ⟨answer, heq, hanswer⟩
        cases heq
        refine ⟨fun k hk => Bool.eq_false_iff.mpr fun haccept => ?_, hlen⟩
        exact absurd (hanswer.mpr ⟨k, hk, haccept⟩) Bool.false_ne_true
      · rintro ⟨hreject, _⟩
        refine ⟨false, rfl, fun h => absurd h Bool.false_ne_true, ?_⟩
        rintro ⟨k, hk, haccept⟩
        rw [hreject k hk] at haccept
        exact haccept
    · rw [if_neg hlen]
      refine iff_of_false ?_ fun h => hlen h.2
      rintro ⟨answer, heq, _⟩
      cases heq

/-- A filter of 64 bits with the key `x`. -/
def xFilter : BloomValue 64 :=
  BloomValue.insert polyHash {} (ascii ['x'])

/-- The first string has one character, so the second one is never looked at. -/
theorem existsKeys_misses_second :
    xFilter.existsKeys polyHash [ascii ['a'], ascii ['x']] = some false ∧
      ∃ k ∈ [ascii ['a'], ascii ['x']], xFilter.existsKey polyHash k = true := by
  decide +kernel

end BloomValue

/-! ## The file format -/

theorem length_intBytes (n : Nat) : (intBytes n).length = 4 := by
  simp [intBytes]

theorem readBuffer_savedBytes {N : Nat} (k : Nat) (bits : BitVec N) :
    readBuffer N (savedBytes k bits) =
      packBits bits.getLsbD N (List.replicate ((N + 7) / 8) 0) := by
  have hlen := length_intBytes k
  have hlong : ¬ (savedBytes k bits).length < 4 := by
    rw [savedBytes, List.length_append]
    omega
  have hdrop : (savedBytes k bits).drop 4 =
      packBits bits.getLsbD N (List.replicate ((N + 7) / 8) 0) := by
    rw [savedBytes, ← hlen, List.drop_left]
  have htake : ((savedBytes k bits).drop 4).take ((N + 7) / 8) =
      packBits bits.getLsbD N (List.replicate ((N + 7) / 8) 0) := by
    rw [hdrop]
    exact List.take_of_length_le (by simp)
  rw [readBuffer, if_neg hlong, htake]
  simp

theorem loadedBits_savedBytes {N : Nat} (k : Nat) (bits : BitVec N) :
    loadedBits N (savedBytes k bits) = bits := by
  rw [loadedBits, readBuffer_savedBytes, unpackBits_packBits]

/-- Which of the two classes a caller uses. -/
inductive FilterClass
  | value
  | valueWM
deriving DecidableEq, Repr

/-- A filter object of either class. -/
inductive AnyFilter (N : Nat)
  | value (f : BloomValue N)
  | valueWM (f : BloomValueWM N)
deriving DecidableEq

namespace AnyFilter
variable {N : Nat}

def cls : AnyFilter N → FilterClass
  | .value _ => .value
  | .valueWM _ => .valueWM

def bitArray : AnyFilter N → BitVec N
  | .value f => f.bitArray
  | .valueWM f => f.bitArray

def existsKey (hash : Bytes → UInt64) : AnyFilter N → Bytes → Bool
  | .value f => f.existsKey hash
  | .valueWM f => f.existsKey hash

def saveToFile : AnyFilter N → Directory → Bytes → Directory
  | .value f => f.saveToFile
  | .valueWM f => f.saveToFile

def loadFromFile (N : Nat) (d : Directory) (filename : Bytes) :
    FilterClass → Except Bytes (AnyFilter N)
  | .value => (BloomValue.loadFromFile N d filename).map .value
  | .valueWM => (BloomValueWM.loadFromFile N d filename).map .valueWM

theorem existsKey_eq (hash : Bytes → UInt64) (f : AnyFilter N) (key : Bytes) :
    f.existsKey hash key = existsBits hash 3 f.bitArray key := by
  cases f with
  | value f =>
    rw [← f.fixed]
    rfl
  | valueWM f =>
    rw [← f.fixed]
    rfl

theorem saveToFile_eq (f : AnyFilter N) (d : Directory) (filename : Bytes) :
    f.saveToFile d filename = d.write filename (savedBytes 3 f.bitArray) := by
  cases f with
  | value f =>
    rw [← f.fixed]
    rfl
  | valueWM f =>
    rw [← f.fixed]
    rfl

/-- Loading a file that opens never fails, whatever it contains. -/
theorem loadFromFile_of_read {d : Directory} {filename contents : Bytes}
    (h : d.read? filename = some contents) (reader : FilterClass) :
    ∃ f : AnyFilter N, loadFromFile N d filename reader = .ok f ∧ f.cls = reader ∧
      f.bitArray = loadedBits N contents := by
  cases reader with
  | value =>
    exact ⟨.value { bitArray := loadedBits N contents },
      by simp [loadFromFile, BloomValue.loadFromFile, h, Except.map], rfl, rfl⟩
  | valueWM =>
    exact ⟨.valueWM { bitArray := loadedBits N contents },
      by simp [loadFromFile, BloomValueWM.loadFromFile, h, Except.map], rfl, rfl⟩

end AnyFilter

/-- The file round trip: a filter of either class that either class loads back
has the same bits and so gives the same answer for every key. -/
theorem filter_file_round_trip (hash : Bytes → UInt64) {N : Nat} (writer : AnyFilter N)
    (reader : FilterClass) {d : Directory} (hd : d.Accessible) (name : Bytes) :
    ∃ f : AnyFilter N,
      AnyFilter.loadFromFile N (writer.saveToFile d (d.pathOf name)) (d.pathOf name) reader =
        .ok f ∧
      f.cls = reader ∧ f.bitArray = writer.bitArray ∧
      ∀ key, f.existsKey hash key = writer.existsKey hash key := by
  have hread : (writer.saveToFile d (d.pathOf name)).read? (d.pathOf name) =
      some (savedBytes 3 writer.bitArray) := by
    rw [AnyFilter.saveToFile_eq, Directory.read?_write hd, if_pos rfl]
  obtain ⟨f, hload, hcls, hbits⟩ := AnyFilter.loadFromFile_of_read (N := N) hread reader
  rw [loadedBits_savedBytes] at hbits
  refine ⟨f, hload, hcls, hbits, fun key => ?_⟩
  rw [AnyFilter.existsKey_eq, AnyFilter.existsKey_eq, hbits]

/-- Twelve bits, so the second byte is partial; bit 7 makes the first byte a
negative `char`. -/
theorem filter_file_round_trip_twelve :
    (Directory.empty (ascii ['d', 'b'])).Accessible ∧
    ∃ f : AnyFilter 12,
      AnyFilter.loadFromFile 12
        ((AnyFilter.value { bitArray := 0x985#12 }).saveToFile (Directory.empty (ascii ['d', 'b']))
          ((Directory.empty (ascii ['d', 'b'])).pathOf (ascii ['5', '.', 'b'])))
        ((Directory.empty (ascii ['d', 'b'])).pathOf (ascii ['5', '.', 'b'])) .valueWM = .ok f ∧
      f.cls = .valueWM ∧ f.bitArray = (AnyFilter.value { bitArray := 0x985#12 }).bitArray ∧
      ∀ key, f.existsKey polyHash key =
        (AnyFilter.value { bitArray := 0x985#12 }).existsKey polyHash key :=
  ⟨Directory.accessible_empty _,
    filter_file_round_trip polyHash (.value { bitArray := 0x985#12 }) .valueWM
      (Directory.accessible_empty _) _⟩

end BloomHierarchy
