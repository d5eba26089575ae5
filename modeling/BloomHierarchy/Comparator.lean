import BloomHierarchy.Coding

/-!
# Comparators (`util/comparator`, `db/dbformat`)

A comparator orders keys and finds short keys between two others, which are
enough to tell the blocks of a table apart. `Comparator` has the functions with
what the header promises of them, so that whatever uses one can rely on it. The
two comparators of the program are values of that type: the bytewise one, and
the one for internal keys over any other.
-/

namespace BloomHierarchy

structure Comparator where
  compare : Bytes → Bytes → Ordering
  /-- Replaces `start`. -/
  findShortestSeparator : (start limit : Bytes) → Bytes
  /-- Replaces `key`. -/
  findShortSuccessor : (key : Bytes) → Bytes
  trans : Std.TransCmp compare
  le_separator : ∀ {start limit}, compare start limit = .lt →
    compare start (findShortestSeparator start limit) ≠ .gt
  separator_lt : ∀ {start limit}, compare start limit = .lt →
    compare (findShortestSeparator start limit) limit = .lt
  separator_of_not_lt : ∀ {start limit}, compare start limit ≠ .lt →
    findShortestSeparator start limit = start
  le_successor : ∀ key, compare key (findShortSuccessor key) ≠ .gt
  length_separator_le : ∀ start limit, (findShortestSeparator start limit).length ≤ start.length
  length_successor_le : ∀ key, (findShortSuccessor key).length ≤ key.length

instance (c : Comparator) : Std.TransCmp c.compare := c.trans

/-! ## The common beginning of two keys -/

/-- How many bytes two keys have in common at their beginning. -/
def sharedPrefix : Bytes → Bytes → Nat
  | a :: as, b :: bs => if a = b then sharedPrefix as bs + 1 else 0
  | _, _ => 0

theorem sharedPrefix_le_left (a b : Bytes) : sharedPrefix a b ≤ a.length := by
  fun_induction sharedPrefix a b with
  | case1 as b bs ih => simpa using ih
  | case2 => exact Nat.zero_le _
  | case3 => exact Nat.zero_le _

theorem take_sharedPrefix (a b : Bytes) :
    a.take (sharedPrefix a b) = b.take (sharedPrefix a b) := by
  fun_induction sharedPrefix a b with
  | case1 as b bs ih => simpa using ih
  | case2 => rfl
  | case3 => rfl

/-! ## The bytewise comparator -/

namespace Bytewise

def findShortestSeparator (start limit : Bytes) : Bytes :=
  let diffIndex := sharedPrefix start limit
  match start[diffIndex]?, limit[diffIndex]? with
  | some diffByte, some limitByte =>
    if diffByte < 0xff ∧ diffByte.toNat + 1 < limitByte.toNat then
      start.take diffIndex ++ [diffByte + 1]
    else start
  -- one of them is the beginning of the other
  | _, _ => start

def findShortSuccessor : Bytes → Bytes
  | [] => []
  | byte :: key => if byte ≠ 0xff then [byte + 1] else byte :: findShortSuccessor key

theorem toNat_add_one {b : UInt8} (h : b < 0xff) : (b + 1).toNat = b.toNat + 1 := by
  have hb : b.toNat < 255 := UInt8.lt_iff_toNat_lt.mp h
  rw [UInt8.toNat_add]
  show (b.toNat + 1) % 256 = _
  omega

/-- The first difference decides. -/
theorem compare_append_cons_lt {a b : UInt8} (h : a < b) (c x y : Bytes) :
    compare (c ++ a :: x) (c ++ b :: y) = .lt := by
  induction c with
  | nil =>
    rw [List.nil_append, List.nil_append, List.compare_cons_cons, Std.compare_eq_lt.mpr h]
    rfl
  | cons z c ih =>
    rw [List.cons_append, List.cons_append, List.compare_cons_cons, Std.compare_self, ih]
    rfl

/-- The separator either stays what it was or lies strictly between. -/
theorem findShortestSeparator_cases (start limit : Bytes) :
    findShortestSeparator start limit = start ∨
      compare start (findShortestSeparator start limit) = .lt ∧
        compare (findShortestSeparator start limit) limit = .lt := by
  unfold findShortestSeparator
  dsimp only
  split
  next a b ha hb =>
    split
    next hroom =>
      right
      obtain ⟨hda, hga⟩ := List.getElem?_eq_some_iff.mp ha
      obtain ⟨hdb, hgb⟩ := List.getElem?_eq_some_iff.mp hb
      have hstart : start = start.take (sharedPrefix start limit) ++
          a :: start.drop (sharedPrefix start limit + 1) := by
        rw [← hga, ← List.drop_eq_getElem_cons hda, List.take_append_drop]
      have hlimit : limit = start.take (sharedPrefix start limit) ++
          b :: limit.drop (sharedPrefix start limit + 1) := by
        rw [take_sharedPrefix, ← hgb, ← List.drop_eq_getElem_cons hdb, List.take_append_drop]
      have hup := toNat_add_one hroom.1
      have hafter : a < a + 1 := UInt8.lt_iff_toNat_lt.mpr (by omega)
      have hbefore : a + 1 < b := UInt8.lt_iff_toNat_lt.mpr (by omega)
      have habove := compare_append_cons_lt hafter (start.take (sharedPrefix start limit))
        (start.drop (sharedPrefix start limit + 1)) []
      have hbelow := compare_append_cons_lt hbefore (start.take (sharedPrefix start limit)) []
        (limit.drop (sharedPrefix start limit + 1))
      rw [← hstart] at habove
      rw [← hlimit] at hbelow
      exact ⟨habove, hbelow⟩
    next => exact .inl rfl
  next => exact .inl rfl

theorem length_findShortestSeparator_le (start limit : Bytes) :
    (findShortestSeparator start limit).length ≤ start.length := by
  unfold findShortestSeparator
  dsimp only
  split
  next a b ha hb =>
    split
    next =>
      obtain ⟨hlt, -⟩ := List.getElem?_eq_some_iff.mp ha
      rw [List.length_append, List.length_take, List.length_singleton]
      omega
    next => exact Nat.le_refl _
  next => exact Nat.le_refl _

theorem length_findShortSuccessor_le (key : Bytes) :
    (findShortSuccessor key).length ≤ key.length := by
  induction key with
  | nil => exact Nat.le_refl _
  | cons byte key ih =>
    unfold findShortSuccessor
    split <;> simp [ih]

theorem compare_findShortSuccessor (key : Bytes) :
    findShortSuccessor key = key ∨ compare key (findShortSuccessor key) = .lt := by
  induction key with
  | nil => exact .inl rfl
  | cons byte key ih =>
    unfold findShortSuccessor
    split
    next hroom =>
      right
      have hlt : byte < 0xff := by
        have hne : byte.toNat ≠ 255 := fun h => hroom (UInt8.toNat_inj.mp h)
        have := byte.toNat_lt
        refine UInt8.lt_iff_toNat_lt.mpr ?_
        show byte.toNat < 255
        omega
      have hup := toNat_add_one hlt
      exact compare_append_cons_lt (UInt8.lt_iff_toNat_lt.mpr (by omega)) [] _ _
    next =>
      rcases ih with h | h
      · exact .inl (by rw [h])
      · right
        rw [List.compare_cons_cons, Std.compare_self, h]
        rfl

end Bytewise

/-- `Slice::compare` is the lexicographic order of unsigned bytes. -/
def bytewiseComparator : Comparator where
  compare := compare
  findShortestSeparator := Bytewise.findShortestSeparator
  findShortSuccessor := Bytewise.findShortSuccessor
  trans := inferInstance
  le_separator := by
    intro start limit _
    rcases Bytewise.findShortestSeparator_cases start limit with h | ⟨h, -⟩
    · rw [h, Std.compare_self]
      decide
    · rw [h]
      decide
  separator_lt := by
    intro start limit hlt
    rcases Bytewise.findShortestSeparator_cases start limit with h | ⟨-, h⟩
    · rwa [h]
    · exact h
  separator_of_not_lt := by
    intro start limit hnot
    rcases Bytewise.findShortestSeparator_cases start limit with h | ⟨h, h'⟩
    · exact h
    · exact absurd (Std.TransCmp.lt_trans h h') hnot
  le_successor := by
    intro key
    rcases Bytewise.compare_findShortSuccessor key with h | h
    · rw [h, Std.compare_self]
      decide
    · rw [h]
      decide
  length_separator_le := Bytewise.length_findShortestSeparator_le
  length_successor_le := Bytewise.length_findShortSuccessor_le

/-! ## The comparator of internal keys -/

def extractUserKey (internalKey : Bytes) : Bytes :=
  internalKey.take (internalKey.length - 8)

/-- The sequence number and type behind the user key. -/
def extractNumber (internalKey : Bytes) : UInt64 :=
  decodeFixed64 (internalKey.drop (internalKey.length - 8))

namespace InternalKey

variable (user : Comparator)

/-- By user key, and the larger number first. -/
def compareKeys (akey bkey : Bytes) : Ordering :=
  (user.compare (extractUserKey akey) (extractUserKey bkey)).then
    (compare (extractNumber bkey) (extractNumber akey))

/-- Behind a shortened user key, the earliest number there is. -/
def tackOn (tmp : Bytes) : Bytes :=
  putFixed64 tmp (packSequenceAndType kMaxSequenceNumber .value)

def findShortestSeparator (start limit : Bytes) : Bytes :=
  let userStart := extractUserKey start
  let userLimit := extractUserKey limit
  let tmp := user.findShortestSeparator userStart userLimit
  -- the user key has become shorter physically, but larger logically
  if tmp.length < userStart.length ∧ user.compare userStart tmp = .lt then tackOn tmp else start

def findShortSuccessor (key : Bytes) : Bytes :=
  let userKey := extractUserKey key
  let tmp := user.findShortSuccessor userKey
  if tmp.length < userKey.length ∧ user.compare userKey tmp = .lt then tackOn tmp else key

theorem extractUserKey_tackOn (tmp : Bytes) : extractUserKey (tackOn tmp) = tmp := by
  have hlen := length_encodeFixed64 (packSequenceAndType kMaxSequenceNumber .value)
  rw [extractUserKey, tackOn, putFixed64, List.length_append, hlen, Nat.add_sub_cancel,
    List.take_left]

/-- The number fits into the place of the old one. -/
theorem length_tackOn_le {tmp key : Bytes} (h : tmp.length < (extractUserKey key).length) :
    (tackOn tmp).length ≤ key.length := by
  rw [extractUserKey, List.length_take] at h
  rw [tackOn, putFixed64, List.length_append, length_encodeFixed64]
  omega

theorem trans_compareKeys : Std.TransCmp (compareKeys user) := by
  have huser : Std.TransCmp fun a b => user.compare (extractUserKey a) (extractUserKey b) :=
    { eq_swap := Std.OrientedCmp.eq_swap
      isLE_trans := Std.TransCmp.isLE_trans }
  have hnumber : Std.TransCmp fun a b : Bytes => compare (extractNumber b) (extractNumber a) :=
    { eq_swap := Std.OrientedCmp.eq_swap
      isLE_trans := fun h h' => Std.TransCmp.isLE_trans h' h }
  exact inferInstanceAs (Std.TransCmp (compareLex
    (fun a b => user.compare (extractUserKey a) (extractUserKey b))
    fun a b => compare (extractNumber b) (extractNumber a)))

theorem compareKeys_of_lt {a b : Bytes}
    (h : user.compare (extractUserKey a) (extractUserKey b) = .lt) : compareKeys user a b = .lt := by
  rw [compareKeys, h]
  rfl

theorem compareKeys_self (a : Bytes) : compareKeys user a a ≠ .gt := by
  have htrans := trans_compareKeys user
  have hself : compareKeys user a a = .eq := Std.ReflCmp.compare_self
  rw [hself]
  decide

/-- A separator that was shortened comes from user keys in order. -/
theorem user_lt_of_shortened {start limit : Bytes}
    (h : (user.findShortestSeparator start limit).length < start.length) :
    user.compare start limit = .lt := by
  by_contra hnot
  rw [user.separator_of_not_lt hnot] at h
  exact absurd h (Nat.lt_irrefl _)

end InternalKey

def internalKeyComparator (user : Comparator) : Comparator where
  compare := InternalKey.compareKeys user
  findShortestSeparator := InternalKey.findShortestSeparator user
  findShortSuccessor := InternalKey.findShortSuccessor user
  trans := InternalKey.trans_compareKeys user
  le_separator := by
    intro start limit _
    unfold InternalKey.findShortestSeparator
    dsimp only
    split
    next h =>
      rw [InternalKey.compareKeys_of_lt user (by rw [InternalKey.extractUserKey_tackOn]; exact h.2)]
      decide
    next => exact InternalKey.compareKeys_self user start
  separator_lt := by
    intro start limit hlt
    unfold InternalKey.findShortestSeparator
    dsimp only
    split
    next h =>
      refine InternalKey.compareKeys_of_lt user ?_
      rw [InternalKey.extractUserKey_tackOn]
      exact user.separator_lt (InternalKey.user_lt_of_shortened user h.1)
    next => exact hlt
  separator_of_not_lt := by
    intro start limit hnot
    unfold InternalKey.findShortestSeparator
    dsimp only
    split
    next h =>
      exact absurd (InternalKey.compareKeys_of_lt user
        (InternalKey.user_lt_of_shortened user h.1)) hnot
    next => rfl
  le_successor := by
    intro key
    unfold InternalKey.findShortSuccessor
    dsimp only
    split
    next h =>
      rw [InternalKey.compareKeys_of_lt user (by rw [InternalKey.extractUserKey_tackOn]; exact h.2)]
      decide
    next => exact InternalKey.compareKeys_self user key
  length_separator_le := by
    intro start limit
    unfold InternalKey.findShortestSeparator
    dsimp only
    split
    next h => exact InternalKey.length_tackOn_le h.1
    next => exact Nat.le_refl _
  length_successor_le := by
    intro key
    unfold InternalKey.findShortSuccessor
    dsimp only
    split
    next h => exact InternalKey.length_tackOn_le h.1
    next => exact Nat.le_refl _

end BloomHierarchy
