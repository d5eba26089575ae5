import BloomHierarchy.LogWriter

/-!
# Reading a log (`db/log_reader.cc`)

The reader takes the file block by block. `ReadPhysicalRecord` returns the next
fragment with its type, or one of two numbers behind the types: `kEof`, and
`kBadRecord` for bytes that are dropped. `ReadRecord` puts the fragments of a record
together. What is dropped is reported, except for what a writer that died leaves at
the end of the file. `BloomHierarchy.LogReads` is about the logs that a writer leaves.
-/

namespace BloomHierarchy

/-- A file read from front to back; `outcomes` are the errors of the calls to come,
which all succeed behind its end. -/
structure SequentialFile where
  rest : Bytes
  outcomes : List (Option Bytes) := []

namespace SequentialFile

def read (n : Nat) (f : SequentialFile) : SequentialFile × Except Bytes Bytes :=
  match f.outcomes with
  | some status :: outcomes => ({ f with outcomes }, .error status)
  | outcomes => ({ rest := f.rest.drop n, outcomes := outcomes.tail }, .ok (f.rest.take n))

def skip (n : Nat) (f : SequentialFile) : SequentialFile × Option Bytes :=
  match f.outcomes with
  | some status :: outcomes => ({ f with outcomes }, some status)
  | outcomes => ({ rest := f.rest.drop n, outcomes := outcomes.tail }, none)

end SequentialFile

namespace Log

/-! ## The reader -/

/-- The number of a type as the reader compares it. -/
def RecordType.number (t : RecordType) : UInt32 :=
  t.code.toUInt32

def kEof : UInt32 :=
  RecordType.last.number + 1

def kBadRecord : UInt32 :=
  RecordType.last.number + 2

/-- `unsigned int type = header[6]`, where the byte is a signed `char`. -/
def typeNumber (b : UInt8) : UInt32 :=
  b.toInt8.toInt32.toUInt32

structure Reader where
  file : SequentialFile
  checksum : Bool
  initialOffset : UInt64
  /-- What the reporter was told: the bytes that were dropped, and why. -/
  reports : List (Nat × Bytes) := []
  buffer : Bytes := []
  eof : Bool := false
  lastRecordOffset : UInt64 := 0
  endOfBufferOffset : UInt64 := 0
  resyncing : Bool := initialOffset > 0

namespace Reader

def reportDrop (bytes : Nat) (reason : Bytes) (r : Reader) : Reader :=
  if r.endOfBufferOffset - UInt64.ofNat r.buffer.length - UInt64.ofNat bytes ≥
      r.initialOffset then
    { r with reports := r.reports ++ [(bytes, reason)] }
  else r

def reportCorruption (bytes : Nat) (reason : String) (r : Reader) : Reader :=
  r.reportDrop bytes (corruption reason)

/-- Where the first block starts that can hold a record from the initial offset on. -/
def blockStartLocation (initialOffset : UInt64) : Nat :=
  let offsetInBlock := initialOffset.toNat % kBlockSize
  let start := initialOffset.toNat - offsetInBlock
  -- not in the trailer of a block
  if offsetInBlock > kBlockSize - 6 then start + kBlockSize else start

/-- The result says whether the reader can go on. -/
def skipToInitialBlock (r : Reader) : Reader × Bool :=
  let blockStartLocation := blockStartLocation r.initialOffset
  let r := { r with endOfBufferOffset := UInt64.ofNat blockStartLocation }
  if blockStartLocation > 0 then
    let skipped := r.file.skip blockStartLocation
    match skipped.2 with
    | some status =>
      (({ r with file := skipped.1 } : Reader).reportDrop blockStartLocation status, false)
    | none => ({ r with file := skipped.1 }, true)
  else (r, true)

variable (crc : Crc32c)

/-- A turn of the loop of `ReadPhysicalRecord` with the bytes of the block in the
buffer. Where the source leaves `*result` alone the fragment here is empty; the caller
does not look at it then. -/
def parsePhysicalRecord (r : Reader) : UInt32 × Bytes × Reader :=
  let dropped := { r with buffer := [] }
  if r.buffer.length < kHeaderSize then
    -- a header that was cut off, at the end of the file
    (kEof, [], dropped)
  else
    let type := typeNumber (r.buffer.getD 6 0)
    let length := (r.buffer.getD 4 0).toNat ||| ((r.buffer.getD 5 0).toNat <<< 8)
    if kHeaderSize + length > r.buffer.length then
      if r.eof then (kEof, [], dropped)
      else (kBadRecord, [], dropped.reportCorruption r.buffer.length "bad record length")
    else if type = RecordType.zero.number ∧ length = 0 then (kBadRecord, [], dropped)
    else if r.checksum ∧ crc.value ((r.buffer.drop 6).take (1 + length)) ≠
        Crc32c.unmask (decodeFixed32 (r.buffer.take 4)) then
      (kBadRecord, [], dropped.reportCorruption r.buffer.length "checksum mismatch")
    else
      let taken := { r with buffer := r.buffer.drop (kHeaderSize + length) }
      if taken.endOfBufferOffset - UInt64.ofNat taken.buffer.length - UInt64.ofNat kHeaderSize -
          UInt64.ofNat length < r.initialOffset then
        (kBadRecord, [], taken)
      else (type, (r.buffer.drop kHeaderSize).take length, taken)

/-- After the next block is read the loop does not come back here: a full block holds
a header, and a shorter one ends the file. -/
def readPhysicalRecord (r : Reader) : UInt32 × Bytes × Reader :=
  if r.buffer.length < kHeaderSize ∧ r.eof = false then
    match r.file.read kBlockSize with
    | (file, .error status) =>
      (kEof, [], { ({ r with file, buffer := [] } : Reader).reportDrop kBlockSize status with
        eof := true })
    | (file, .ok data) =>
      parsePhysicalRecord crc
        { r with
          file
          buffer := data
          endOfBufferOffset := r.endOfBufferOffset + UInt64.ofNat data.length
          eof := data.length < kBlockSize }
  else r.parsePhysicalRecord crc

end Reader

/-- The variables of the loop of `ReadRecord`. -/
structure ReadState where
  reader : Reader
  inFragmentedRecord : Bool := false
  scratch : Bytes := []
  prospectiveRecordOffset : UInt64 := 0

/-- What a turn of the loop ends with. -/
inductive Turn where
  | next (s : ReadState)
  | done (record : Option Bytes) (r : Reader)

/-- The reader behind a turn. -/
def Turn.reader : Turn → Reader
  | .next s => s.reader
  | .done _ r => r

namespace ReadState

/-- What is lost if the record does not go on. -/
def reportPartial (reason : String) (s : ReadState) : Reader :=
  if s.inFragmentedRecord ∧ s.scratch ≠ [] then
    s.reader.reportCorruption s.scratch.length reason
  else s.reader

/-- The switch on the type. -/
def dispatch (type : UInt32) (fragment : Bytes) (physicalRecordOffset : UInt64)
    (s : ReadState) : Turn :=
  if type = RecordType.full.number then
    .done (some fragment)
      { s.reportPartial "partial record without end(1)" with
        lastRecordOffset := physicalRecordOffset }
  else if type = RecordType.first.number then
    .next
      { reader := s.reportPartial "partial record without end(2)"
        inFragmentedRecord := true
        scratch := fragment
        prospectiveRecordOffset := physicalRecordOffset }
  else if type = RecordType.middle.number then
    if s.inFragmentedRecord then .next { s with scratch := s.scratch ++ fragment }
    else
      .next { s with
        reader := s.reader.reportCorruption fragment.length
          "missing start of fragmented record(1)" }
  else if type = RecordType.last.number then
    if s.inFragmentedRecord then
      .done (some (s.scratch ++ fragment))
        { s.reader with lastRecordOffset := s.prospectiveRecordOffset }
    else
      .next { s with
        reader := s.reader.reportCorruption fragment.length
          "missing start of fragmented record(2)" }
  else if type = kEof then
    -- a record that was not finished is ignored
    .done none s.reader
  else if type = kBadRecord then
    if s.inFragmentedRecord then
      .next { s with
        reader := s.reader.reportCorruption s.scratch.length "error in middle of record"
        inFragmentedRecord := false
        scratch := [] }
    else .next s
  else
    .next { s with
      reader := s.reader.reportCorruption
        (fragment.length + if s.inFragmentedRecord then s.scratch.length else 0)
        ("unknown record type " ++ toString type)
      inFragmentedRecord := false
      scratch := [] }

/-- A turn of the loop. -/
def turn (crc : Crc32c) (s : ReadState) : Turn :=
  let physical := s.reader.readPhysicalRecord crc
  let type := physical.1
  let fragment := physical.2.1
  let r := physical.2.2
  let physicalRecordOffset :=
    r.endOfBufferOffset - UInt64.ofNat r.buffer.length - UInt64.ofNat kHeaderSize -
      UInt64.ofNat fragment.length
  if r.resyncing ∧ type = RecordType.middle.number then .next { s with reader := r }
  else if r.resyncing ∧ type = RecordType.last.number then
    .next { s with reader := { r with resyncing := false } }
  else
    { s with reader := { r with resyncing := false } }.dispatch type fragment
      physicalRecordOffset

end ReadState

/-! ## Every turn takes bytes of the file -/

/-- The bytes that have not been looked at. -/
def Reader.remaining (r : Reader) : Nat :=
  r.buffer.length + r.file.rest.length

namespace Reader

@[simp] theorem remaining_reportDrop (bytes : Nat) (reason : Bytes) (r : Reader) :
    (r.reportDrop bytes reason).remaining = r.remaining := by
  unfold reportDrop
  split <;> rfl

@[simp] theorem remaining_reportCorruption (bytes : Nat) (reason : String) (r : Reader) :
    (r.reportCorruption bytes reason).remaining = r.remaining :=
  remaining_reportDrop bytes (corruption reason) r

theorem remaining_skipToInitialBlock_le (r : Reader) :
    r.skipToInitialBlock.1.remaining ≤ r.remaining := by
  have hskip (n : Nat) : (r.file.skip n).1.rest.length ≤ r.file.rest.length := by
    unfold SequentialFile.skip
    split
    next => exact Nat.le_refl _
    next => exact (List.drop_sublist _ _).length_le
  unfold skipToInitialBlock
  dsimp only
  split
  next =>
    split
    next =>
      rw [remaining_reportDrop]
      exact Nat.add_le_add_left (hskip _) _
    next => exact Nat.add_le_add_left (hskip _) _
  next => exact Nat.le_refl _

variable (crc : Crc32c)

/-- A result other than `kEof` takes at least a header. -/
theorem remaining_parsePhysicalRecord (r : Reader) :
    (r.parsePhysicalRecord crc).1 = kEof ∨
      (r.parsePhysicalRecord crc).2.2.remaining < r.remaining := by
  unfold parsePhysicalRecord
  dsimp only
  split
  next => exact .inl rfl
  next hheader =>
    have hpos : 0 < r.buffer.length := by
      unfold kHeaderSize at hheader
      omega
    have hdropped : ({ r with buffer := [] } : Reader).remaining < r.remaining :=
      Nat.add_lt_add_right hpos _
    have htaken (length : Nat) :
        ({ r with buffer := r.buffer.drop (kHeaderSize + length) } : Reader).remaining <
          r.remaining := by
      refine Nat.add_lt_add_right ?_ _
      rw [List.length_drop]
      unfold kHeaderSize
      omega
    split_ifs
    · exact .inl rfl
    · exact .inr ((remaining_reportCorruption _ _ _).trans_lt hdropped)
    · exact .inr hdropped
    · exact .inr ((remaining_reportCorruption _ _ _).trans_lt hdropped)
    · exact .inr (htaken _)
    · exact .inr (htaken _)

theorem remaining_readPhysicalRecord (r : Reader) :
    (r.readPhysicalRecord crc).1 = kEof ∨
      (r.readPhysicalRecord crc).2.2.remaining < r.remaining := by
  unfold readPhysicalRecord
  split
  next hempty =>
    split
    next => exact .inl rfl
    next file data hread =>
      refine (remaining_parsePhysicalRecord crc _).imp_right fun hlt => hlt.trans_le ?_
      -- the block moves from the file to the buffer, and the trailer in front is gone
      have hbytes : data.length + file.rest.length = r.file.rest.length := by
        unfold SequentialFile.read at hread
        split at hread
        next => cases hread
        next =>
          cases hread
          rw [← List.length_append, List.take_append_drop]
      exact hbytes.le.trans (Nat.le_add_left _ _)
  next => exact remaining_parsePhysicalRecord crc r

end Reader

namespace ReadState

@[simp] theorem remaining_reportPartial (reason : String) (s : ReadState) :
    (s.reportPartial reason).remaining = s.reader.remaining := by
  unfold reportPartial
  split
  next => exact Reader.remaining_reportCorruption _ _ _
  next => rfl

theorem remaining_dispatch (type : UInt32) (fragment : Bytes) (physicalRecordOffset : UInt64)
    (s : ReadState) :
    (s.dispatch type fragment physicalRecordOffset).reader.remaining = s.reader.remaining := by
  unfold dispatch
  split_ifs <;> first
    | rfl
    | exact remaining_reportPartial _ s
    | exact Reader.remaining_reportCorruption _ _ _

/-- Only the end of the file is found without taking bytes of it. -/
theorem remaining_turn (crc : Crc32c) (s : ReadState) :
    (∃ r, s.turn crc = .done none r) ∨
      (s.turn crc).reader.remaining < s.reader.remaining := by
  rcases s.reader.remaining_readPhysicalRecord crc with heof | hlt
  · refine .inl ⟨{ (s.reader.readPhysicalRecord crc).2.2 with resyncing := false }, ?_⟩
    unfold turn
    dsimp only
    rw [heof, if_neg fun h => absurd h.2 (by decide), if_neg fun h => absurd h.2 (by decide)]
    rfl
  · refine .inr ?_
    unfold turn
    dsimp only
    split
    next => exact hlt
    next =>
      split
      next => exact hlt
      next => exact (remaining_dispatch _ _ _ _).trans_lt hlt

end ReadState

namespace Reader

variable (crc : Crc32c)

/-- The loop of `ReadRecord`. -/
def readLoop (s : ReadState) : Option Bytes × Reader :=
  match _turned : s.turn crc with
  | .next next => readLoop next
  | .done record r => (record, r)
termination_by s.reader.remaining
decreasing_by
  rcases s.remaining_turn crc with ⟨r, hdone⟩ | hlt
  · rw [hdone] at _turned
    cases _turned
  · rw [_turned] at hlt
    exact hlt

theorem readLoop_next {s next : ReadState} (h : s.turn crc = .next next) :
    readLoop crc s = readLoop crc next := by
  rw [readLoop]
  split
  next found hfound =>
    rw [h] at hfound
    cases hfound
    rfl
  next hfound =>
    rw [h] at hfound
    cases hfound

theorem readLoop_done {s : ReadState} {record : Option Bytes} {r : Reader}
    (h : s.turn crc = .done record r) : readLoop crc s = (record, r) := by
  rw [readLoop]
  split
  next hfound =>
    rw [h] at hfound
    cases hfound
  next found reader hfound =>
    rw [h] at hfound
    cases hfound
    rfl

def readRecord (r : Reader) : Option Bytes × Reader :=
  if r.lastRecordOffset < r.initialOffset then
    let skipped := r.skipToInitialBlock
    if skipped.2 then readLoop crc { reader := skipped.1 } else (none, skipped.1)
  else readLoop crc { reader := r }

theorem remaining_readLoop {s : ReadState} {record : Bytes}
    (h : (readLoop crc s).1 = some record) :
    (readLoop crc s).2.remaining < s.reader.remaining := by
  induction s using readLoop.induct crc with
  | case1 s next hturn ih =>
    rw [readLoop_next crc hturn] at h ⊢
    rcases s.remaining_turn crc with ⟨r, hdone⟩ | hlt
    · rw [hdone] at hturn
      cases hturn
    · rw [hturn] at hlt
      exact (ih h).trans hlt
  | case2 s found r hturn =>
    rw [readLoop_done crc hturn] at h ⊢
    rcases s.remaining_turn crc with ⟨r, hdone⟩ | hlt
    · rw [hdone] at hturn
      cases hturn
      cases h
    · rw [hturn] at hlt
      exact hlt

/-- Every record that is returned takes bytes of the file. -/
theorem remaining_readRecord {r : Reader} {record : Bytes}
    (h : (r.readRecord crc).1 = some record) :
    (r.readRecord crc).2.remaining < r.remaining := by
  unfold readRecord at h ⊢
  dsimp only at h ⊢
  split at h
  next hskip =>
    rw [if_pos hskip]
    split at h
    next hok =>
      rw [if_pos hok]
      exact (remaining_readLoop crc h).trans_le r.remaining_skipToInitialBlock_le
    next => cases h
  next hskip =>
    rw [if_neg hskip]
    exact remaining_readLoop crc h

/-- `while (reader.ReadRecord(&record, &scratch))`: the records, and the reader at the
end. -/
def readRecords (r : Reader) : List Bytes × Reader :=
  match _read : r.readRecord crc with
  | (some record, next) =>
    let others := readRecords next
    (record :: others.1, others.2)
  | (none, next) => ([], next)
termination_by r.remaining
decreasing_by
  have hsome : (r.readRecord crc).1 = some record := by rw [_read]
  have hlt := remaining_readRecord crc hsome
  rw [_read] at hlt
  exact hlt

end Reader

end Log

end BloomHierarchy
