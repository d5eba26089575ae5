import BloomHierarchy.Coding
import BloomHierarchy.Store

/-!
# Batches (`db/write_batch.cc`)

A batch is its bytes: a sequence number, the number of updates, and the updates one
behind the other. `Iterate` hands the updates to a handler and stops at the first one
that it cannot read; what it has handed over by then stays with the handler. The
handler of `InsertInto` adds them to a memtable under consecutive numbers.

Results:
1. `WriteBatch.Holds.iterate`: the updates that were put into a batch are handed over
   in their order, without an error;
2. `WriteBatch.batch_inserted`: a memtable gets an entry for each of them, under
   consecutive numbers.
-/

namespace BloomHierarchy

/-- What a handler is told. -/
inductive Update where
  | put (key value : Bytes)
  | delete (key : Bytes)
deriving DecidableEq, Repr

structure WriteBatch where
  rep : Bytes
deriving DecidableEq, Repr

namespace WriteBatch

def kHeader : Nat :=
  12

/-- `Clear`. -/
def empty : WriteBatch where
  rep := List.replicate kHeader 0

def count (b : WriteBatch) : Int32 :=
  (decodeFixed32 ((b.rep.drop 8).take 4)).toInt32

def setCount (n : Int32) (b : WriteBatch) : WriteBatch where
  rep := b.rep.take 8 ++ encodeFixed32 n.toUInt32 ++ b.rep.drop 12

def sequence (b : WriteBatch) : UInt64 :=
  decodeFixed64 (b.rep.take 8)

def setSequence (seq : UInt64) (b : WriteBatch) : WriteBatch where
  rep := encodeFixed64 seq ++ b.rep.drop 8

def put (key value : Bytes) (b : WriteBatch) : WriteBatch :=
  let counted := b.setCount (b.count + 1)
  { rep := putLengthPrefixedSlice (putLengthPrefixedSlice
      (counted.rep ++ [ValueType.value.code.toUInt8]) key) value }

def delete (key : Bytes) (b : WriteBatch) : WriteBatch :=
  let counted := b.setCount (b.count + 1)
  { rep := putLengthPrefixedSlice (counted.rep ++ [ValueType.deletion.code.toUInt8]) key }

def setContents (contents : Bytes) : WriteBatch where
  rep := contents

/-! ## `Iterate` -/

/-- The switch on the tag: the update and the input behind it. -/
def readUpdate (tag : UInt8) (input : Bytes) : Except Bytes (Update × Bytes) :=
  if tag = ValueType.value.code.toUInt8 then
    match (do
      let (key, input) ← getLengthPrefixedSlice input
      let (value, input) ← getLengthPrefixedSlice input
      some (Update.put key value, input)) with
    | some r => .ok r
    | none => .error (corruption "bad WriteBatch Put")
  else if tag = ValueType.deletion.code.toUInt8 then
    match getLengthPrefixedSlice input with
    | some (key, input) => .ok (.delete key, input)
    | none => .error (corruption "bad WriteBatch Delete")
  else .error (corruption "unknown WriteBatch tag")

theorem length_lt_of_readUpdate {tag : UInt8} {input rest : Bytes} {u : Update}
    (h : readUpdate tag input = .ok (u, rest)) : rest.length < input.length := by
  unfold readUpdate at h
  split at h
  next =>
    split at h
    next r hread =>
      obtain ⟨⟨key, behind⟩, hkey, hread⟩ := Option.bind_eq_some_iff.mp hread
      obtain ⟨⟨value, last⟩, hvalue, hread⟩ := Option.bind_eq_some_iff.mp hread
      cases hread
      cases h
      exact (length_lt_of_getLengthPrefixedSlice hvalue).trans
        (length_lt_of_getLengthPrefixedSlice hkey)
    next => cases h
  next =>
    split at h
    next =>
      split at h
      next key behind hkey =>
        cases h
        exact length_lt_of_getLengthPrefixedSlice hkey
      next => cases h
    next => cases h

/-- The loop: what is handed over, and the number of updates that were found. -/
def iterateFrom (found : Int32) : Bytes → List Update × Except Bytes Int32
  | [] => ([], .ok found)
  | tag :: input =>
    match _read : readUpdate tag input with
    | .ok (u, rest) =>
      let others := iterateFrom (found + 1) rest
      (u :: others.1, others.2)
    | .error status => ([], .error status)
termination_by input => input.length
decreasing_by exact Nat.lt_succ_of_lt (length_lt_of_readUpdate _read)

def iterate (b : WriteBatch) : List Update × Option Bytes :=
  if b.rep.length < kHeader then ([], some (corruption "malformed WriteBatch (too small)"))
  else
    let handled := iterateFrom 0 (b.rep.drop kHeader)
    match handled.2 with
    | .error status => (handled.1, some status)
    | .ok found =>
      (handled.1, if found ≠ b.count then some (corruption "WriteBatch has wrong count") else none)

end WriteBatch

/-- `MemTable::Add`: the number is kept in seven bytes, behind them the type. -/
def memTableEntry (s : UInt64) (type : ValueType) (key value : Bytes) : Entry where
  key := ⟨key, packSequenceAndType s type >>> 8, type, shiftRight_le_max _⟩
  value := value

/-- What `MemTableInserter` adds. -/
def inserted (sequence : UInt64) : List Update → List Entry
  | [] => []
  | .put key value :: updates =>
    memTableEntry sequence .value key value :: inserted (sequence + 1) updates
  | .delete key :: updates =>
    memTableEntry sequence .deletion key [] :: inserted (sequence + 1) updates

def WriteBatch.insertInto (b : WriteBatch) (memtable : List Entry) :
    List Entry × Option Bytes :=
  let handled := b.iterate
  (memtable ++ inserted b.sequence handled.1, handled.2)

/-! ## What a batch holds -/

namespace Update

/-- The update in a batch. -/
def encode : Update → Bytes
  | .put key value =>
    ValueType.value.code.toUInt8 ::
      (putLengthPrefixedSlice [] key ++ putLengthPrefixedSlice [] value)
  | .delete key => ValueType.deletion.code.toUInt8 :: putLengthPrefixedSlice [] key

/-- Lengths are stored in 32 bits. -/
def Small : Update → Prop
  | .put key value => key.length < 2 ^ 32 ∧ value.length < 2 ^ 32
  | .delete key => key.length < 2 ^ 32

/-- The member function of the batch. -/
def addTo (b : WriteBatch) : Update → WriteBatch
  | .put key value => b.put key value
  | .delete key => b.delete key

end Update

theorem putLengthPrefixedSlice_eq (dst value : Bytes) :
    putLengthPrefixedSlice dst value = dst ++ putLengthPrefixedSlice [] value := by
  simp [putLengthPrefixedSlice, putVarint32]

namespace WriteBatch

/-- The batch with these updates. -/
structure Holds (b : WriteBatch) (sequence : UInt64) (updates : List Update) : Prop where
  rep : b.rep = encodeFixed64 sequence ++
    (encodeFixed32 (UInt32.ofNat updates.length) ++ updates.flatMap Update.encode)

section
variable {b : WriteBatch} {sequence : UInt64} {updates : List Update}

theorem holds_empty : empty.Holds 0 [] := ⟨by decide⟩

theorem Holds.kHeader_le (h : b.Holds sequence updates) : kHeader ≤ b.rep.length := by
  rw [h.rep, ← List.append_assoc, List.length_append]
  exact Nat.le_add_right _ _

theorem Holds.take_sequence (h : b.Holds sequence updates) :
    b.rep.take 8 = encodeFixed64 sequence := by
  rw [h.rep]
  exact List.take_left' rfl

theorem Holds.sequence_eq (h : b.Holds sequence updates) : b.sequence = sequence := by
  rw [WriteBatch.sequence, h.take_sequence, decodeFixed64_encodeFixed64]

theorem Holds.drop_header (h : b.Holds sequence updates) :
    b.rep.drop kHeader = updates.flatMap Update.encode := by
  rw [h.rep, ← List.append_assoc]
  exact List.drop_left' rfl

theorem Holds.count_eq (h : b.Holds sequence updates) :
    b.count = (UInt32.ofNat updates.length).toInt32 := by
  have hdrop : b.rep.drop 8 = encodeFixed32 (UInt32.ofNat updates.length) ++
      updates.flatMap Update.encode := by
    rw [h.rep]
    exact List.drop_left' rfl
  have htake : (b.rep.drop 8).take 4 = encodeFixed32 (UInt32.ofNat updates.length) := by
    rw [hdrop]
    exact List.take_left' rfl
  rw [count, htake, decodeFixed32_encodeFixed32]

theorem Holds.setSequence (h : b.Holds sequence updates) (seq : UInt64) :
    (b.setSequence seq).Holds seq updates where
  rep := by
    rw [WriteBatch.setSequence, h.rep]
    exact congrArg (encodeFixed64 seq ++ ·) (List.drop_left' rfl)

theorem Holds.addTo (h : b.Holds sequence updates) (u : Update) :
    (u.addTo b).Holds sequence (updates ++ [u]) := by
  have hcounted : (b.setCount (b.count + 1)).rep = encodeFixed64 sequence ++
      (encodeFixed32 (UInt32.ofNat (updates ++ [u]).length) ++
        updates.flatMap Update.encode) := by
    have hcount : (b.count + 1).toUInt32 = UInt32.ofNat (updates ++ [u]).length := by
      rw [h.count_eq, List.length_append]
      exact (UInt32.ofNat_add _ _).symm
    have hdrop : b.rep.drop 12 = updates.flatMap Update.encode := h.drop_header
    rw [setCount, h.take_sequence, hcount, hdrop, List.append_assoc]
  refine ⟨?_⟩
  rw [List.flatMap_append]
  cases u with
  | put key value =>
    show putLengthPrefixedSlice (putLengthPrefixedSlice (_ ++ [_]) key) value = _
    rw [putLengthPrefixedSlice_eq, putLengthPrefixedSlice_eq (_ ++ [_]), hcounted]
    simp [Update.encode]
  | delete key =>
    show putLengthPrefixedSlice (_ ++ [_]) key = _
    rw [putLengthPrefixedSlice_eq, hcounted]
    simp [Update.encode]

end

/-! ## What is handed over -/

theorem readUpdate_put {key value : Bytes} (hkey : key.length < 2 ^ 32)
    (hvalue : value.length < 2 ^ 32) (rest : Bytes) :
    readUpdate ValueType.value.code.toUInt8
      (putLengthPrefixedSlice [] key ++ (putLengthPrefixedSlice [] value ++ rest)) =
        .ok (.put key value, rest) := by
  rw [readUpdate, if_pos rfl, getLengthPrefixedSlice_put hkey]
  dsimp only [Option.bind_eq_bind, Option.bind_some]
  rw [getLengthPrefixedSlice_put hvalue]
  rfl

theorem readUpdate_delete {key : Bytes} (hkey : key.length < 2 ^ 32) (rest : Bytes) :
    readUpdate ValueType.deletion.code.toUInt8 (putLengthPrefixedSlice [] key ++ rest) =
      .ok (.delete key, rest) := by
  rw [readUpdate, if_neg (by decide), if_pos rfl, getLengthPrefixedSlice_put hkey]

theorem iterateFrom_ok {found : Int32} {tag : UInt8} {input rest : Bytes} {u : Update}
    (h : readUpdate tag input = .ok (u, rest)) :
    iterateFrom found (tag :: input) =
      (u :: (iterateFrom (found + 1) rest).1, (iterateFrom (found + 1) rest).2) := by
  rw [iterateFrom]
  split
  next hread =>
    rw [h] at hread
    cases hread
    rfl
  next hread =>
    rw [h] at hread
    cases hread

theorem iterateFrom_encode {u : Update} (h : u.Small) (found : Int32) (rest : Bytes) :
    iterateFrom found (u.encode ++ rest) =
      (u :: (iterateFrom (found + 1) rest).1, (iterateFrom (found + 1) rest).2) := by
  cases u with
  | put key value =>
    refine iterateFrom_ok ?_
    rw [List.append_eq, List.append_assoc]
    exact readUpdate_put h.1 h.2 rest
  | delete key => exact iterateFrom_ok (readUpdate_delete h rest)

theorem iterateFrom_updates {updates : List Update} (h : ∀ u ∈ updates, u.Small)
    (found : Int32) :
    iterateFrom found (updates.flatMap Update.encode) =
      (updates, .ok (found + (UInt32.ofNat updates.length).toInt32)) := by
  induction updates generalizing found with
  | nil =>
    rw [List.flatMap_nil, iterateFrom]
    exact congrArg (fun n => ([], Except.ok n)) (Int32.add_zero found).symm
  | cons u updates ih =>
    obtain ⟨hu, hrest⟩ := List.forall_mem_cons.mp h
    have hcount : found + 1 + (UInt32.ofNat updates.length).toInt32 =
        found + (UInt32.ofNat (updates.length + 1)).toInt32 := by
      rw [UInt32.ofNat_add, Int32.add_assoc, Int32.add_comm 1]
      rfl
    rw [List.flatMap_cons, iterateFrom_encode hu, ih hrest, hcount]
    rfl

theorem Holds.iterate {b : WriteBatch} {sequence : UInt64} {updates : List Update}
    (h : b.Holds sequence updates) (hsmall : ∀ u ∈ updates, u.Small) :
    b.iterate = (updates, none) := by
  have hcount : (0 : Int32) + (UInt32.ofNat updates.length).toInt32 = b.count := by
    rw [h.count_eq, Int32.zero_add]
  rw [WriteBatch.iterate, if_neg (Nat.not_lt.mpr h.kHeader_le), h.drop_header, iterateFrom_updates hsmall]
  dsimp only
  rw [hcount, if_neg (not_not.mpr rfl)]

theorem Holds.insertInto {b : WriteBatch} {sequence : UInt64} {updates : List Update}
    (h : b.Holds sequence updates) (hsmall : ∀ u ∈ updates, u.Small) (memtable : List Entry) :
    b.insertInto memtable = (memtable ++ inserted sequence updates, none) := by
  rw [WriteBatch.insertInto, h.iterate hsmall, h.sequence_eq]

end WriteBatch

end BloomHierarchy
