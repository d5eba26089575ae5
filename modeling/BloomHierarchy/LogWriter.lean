import BloomHierarchy.TableBuilder

/-!
# The log file (`db/log_format.h`, `db/log_writer.cc`)

A log is a sequence of blocks of `kBlockSize` bytes. A record is cut into fragments
that do not cross the end of a block; each fragment stands behind a header with its
checksum, its length and its place in the record. Fewer than `kHeaderSize` bytes at
the end of a block are filled with zeros.

`AddRecord` does not look at the status of the call that writes the zeros, so an error
there is not reported and the fragments behind it stand at other offsets than the
writer counts. The results are about files whose calls succeed.

Results:

1. `cut_fragments`: the fragments are the record, and none crosses the end of a block.
2. `Writer.wrote_addFragments`, `Writer.wrote_addRecords`: what the writer appends is
   the layout of the records' fragments from its offset on.
-/

namespace BloomHierarchy

/-- No call of the file fails. -/
def WritableFile.Reliable (f : WritableFile) : Prop :=
  ∀ outcome ∈ f.outcomes, outcome = none

theorem WritableFile.Reliable.append {f : WritableFile} (h : f.Reliable) (data : Bytes) :
    (f.append data).2 = none ∧ (f.append data).1.contents = f.contents ++ data ∧
      (f.append data).1.Reliable := by
  unfold WritableFile.append
  split
  next status written outcomes hout =>
    have hnone := h _ (hout ▸ List.mem_cons_self)
    cases hnone
  next => exact ⟨rfl, rfl, fun outcome hmem => h outcome (List.mem_of_mem_tail hmem)⟩

namespace Log

/-! ## The format -/

inductive RecordType where
  | zero
  | full
  | first
  | middle
  | last
deriving DecidableEq, Repr

/-- The number of the type in a header. -/
def RecordType.code : RecordType → UInt8
  | .zero => 0
  | .full => 1
  | .first => 2
  | .middle => 3
  | .last => 4

def kBlockSize : Nat :=
  32768

/-- The checksum takes four bytes, the length two and the type one. -/
def kHeaderSize : Nat :=
  4 + 2 + 1

/-- The header that `EmitPhysicalRecord` puts in front of the fragment. -/
def header (crc : Crc32c) (t : RecordType) (fragment : Bytes) : Bytes :=
  encodeFixed32 (Crc32c.mask (crc.extend (crc.value [t.code]) fragment)) ++
    [UInt8.ofNat fragment.length, UInt8.ofNat (fragment.length >>> 8), t.code]

@[simp] theorem length_header (crc : Crc32c) (t : RecordType) (fragment : Bytes) :
    (header crc t fragment).length = kHeaderSize := rfl

/-! ## The writer -/

structure Writer where
  dest : WritableFile
  blockOffset : Nat := 0

namespace Writer

variable (crc : Crc32c)

/-- The writer of a file that already has `destLength` bytes. -/
def reopen (dest : WritableFile) (destLength : UInt64) : Writer where
  dest
  blockOffset := destLength.toNat % kBlockSize

def emitPhysicalRecord (t : RecordType) (fragment : Bytes) (w : Writer) :
    Writer × Option Bytes :=
  let headed := w.dest.append (header crc t fragment)
  let filled := if headed.2 = none then headed.1.append fragment else headed
  let flushed := if filled.2 = none then filled.1.flush else filled
  ({ dest := flushed.1, blockOffset := w.blockOffset + (kHeaderSize + fragment.length) },
    flushed.2)

/-- The start of a turn of the loop in `AddRecord`: a block without room for a header
is filled. -/
def switchBlock (w : Writer) : Writer :=
  let leftover := kBlockSize - w.blockOffset
  if leftover < kHeaderSize then
    { dest := if leftover > 0 then (w.dest.append (List.replicate leftover 0)).1 else w.dest
      blockOffset := 0 }
  else w

end Writer

def fragmentType (begins ends : Bool) : RecordType :=
  if begins && ends then .full
  else if begins then .first
  else if ends then .last
  else .middle

/-- The offset in the block at which the next header stands. -/
def place (blockOffset : Nat) : Nat :=
  if kBlockSize - blockOffset < kHeaderSize then 0 else blockOffset

/-- The bytes of a fragment that fit behind a header at the next place. -/
def avail (blockOffset : Nat) : Nat :=
  kBlockSize - place blockOffset - kHeaderSize

/-- Each turn takes bytes of the record, apart from one that finds exactly the room
for a header; the turn behind it stands at the start of a block. -/
theorem turn_decreases {blockOffset : Nat} {left : Bytes}
    (hrest : left.drop (avail blockOffset) ≠ []) :
    2 * (left.drop (avail blockOffset)).length +
        (if place blockOffset + (kHeaderSize + (left.take (avail blockOffset)).length) =
          kBlockSize - kHeaderSize then 1 else 0) <
      2 * left.length + (if blockOffset = kBlockSize - kHeaderSize then 1 else 0) := by
  have hlen : avail blockOffset < left.length := by
    by_contra hle
    exact hrest (List.drop_eq_nil_of_le (Nat.le_of_not_lt hle))
  simp only [List.length_drop, List.length_take, Nat.min_eq_left hlen.le]
  unfold avail place at *
  simp only [kBlockSize, kHeaderSize] at *
  grind

theorem Writer.blockOffset_switchBlock (w : Writer) :
    w.switchBlock.blockOffset = place w.blockOffset := by
  unfold switchBlock place
  dsimp only
  split <;> rfl

/-- The loop of `AddRecord`, from the bytes that are left. -/
def Writer.addFragments (crc : Crc32c) (begins : Bool) (left : Bytes) (w : Writer) :
    Writer × Option Bytes :=
  let switched := w.switchBlock
  let avail := kBlockSize - switched.blockOffset - kHeaderSize
  let rest := left.drop avail
  let emitted :=
    emitPhysicalRecord crc (fragmentType begins rest.isEmpty) (left.take avail) switched
  if emitted.2 = none ∧ rest ≠ [] then addFragments crc false rest emitted.1 else emitted
termination_by 2 * left.length + (if w.blockOffset = kBlockSize - kHeaderSize then 1 else 0)
decreasing_by
  next h =>
    have hrest : left.drop (Log.avail w.blockOffset) ≠ [] := by
      rw [Log.avail, ← blockOffset_switchBlock]
      exact h.2
    simp only [emitPhysicalRecord, blockOffset_switchBlock]
    exact turn_decreases hrest

def Writer.addRecord (crc : Crc32c) (slice : Bytes) (w : Writer) : Writer × Option Bytes :=
  w.addFragments crc true slice

/-- One call of `AddRecord` after the other; the first error is returned. -/
def Writer.addRecords (crc : Crc32c) : List Bytes → Writer → Writer × Option Bytes
  | [], w => (w, none)
  | record :: records, w =>
    let added := w.addRecord crc record
    if added.2 = none then addRecords crc records added.1 else added

/-! ## What a log holds -/

/-- A fragment with its type. -/
abbrev Fragment := RecordType × Bytes

/-- The offset in the block behind a fragment. -/
def advance (blockOffset : Nat) (f : Fragment) : Nat :=
  place blockOffset + (kHeaderSize + f.2.length)

/-- The zeros in front of the next header. -/
def padding (blockOffset : Nat) : Bytes :=
  if kBlockSize - blockOffset < kHeaderSize then List.replicate (kBlockSize - blockOffset) 0
  else []

/-- The bytes of a fragment, without the zeros in front of it. -/
def framed (crc : Crc32c) (f : Fragment) : Bytes :=
  header crc f.1 f.2 ++ f.2

/-- Fragments one behind the other, from an offset in a block. -/
def layout (crc : Crc32c) : Nat → List Fragment → Bytes
  | _, [] => []
  | blockOffset, f :: fs =>
    padding blockOffset ++ (framed crc f ++ layout crc (advance blockOffset f) fs)

/-- The fragments of a record, from an offset in a block. -/
def fragments (blockOffset : Nat) (begins : Bool) (left : Bytes) : List Fragment :=
  let rest := left.drop (avail blockOffset)
  let f := (fragmentType begins rest.isEmpty, left.take (avail blockOffset))
  if rest ≠ [] then f :: fragments (advance blockOffset f) false rest else [f]
termination_by 2 * left.length + (if blockOffset = kBlockSize - kHeaderSize then 1 else 0)
decreasing_by
  next h => exact turn_decreases h

/-- The fragments of a sequence of records. -/
def recordFragments : Nat → List Bytes → List Fragment
  | _, [] => []
  | blockOffset, record :: records =>
    let fs := fragments blockOffset true record
    fs ++ recordFragments (fs.foldl advance blockOffset) records

/-- The record, or what is left of it, in fragments none of which crosses the end of its
block. -/
inductive Cut : Nat → Bool → Bytes → List Fragment → Prop
  | last {blockOffset : Nat} {begins : Bool} {fragment : Bytes} :
      place blockOffset + (kHeaderSize + fragment.length) ≤ kBlockSize →
      Cut blockOffset begins fragment [(fragmentType begins true, fragment)]
  | more {blockOffset : Nat} {begins : Bool} {fragment left : Bytes} {fs : List Fragment} :
      place blockOffset + (kHeaderSize + fragment.length) ≤ kBlockSize →
      Cut (advance blockOffset (fragmentType begins false, fragment)) false left fs →
      Cut blockOffset begins (fragment ++ left) ((fragmentType begins false, fragment) :: fs)

@[simp] theorem length_framed (crc : Crc32c) (f : Fragment) :
    (framed crc f).length = kHeaderSize + f.2.length := by
  rw [framed, List.length_append, length_header]

theorem layout_append (crc : Crc32c) (blockOffset : Nat) (fs gs : List Fragment) :
    layout crc blockOffset (fs ++ gs) =
      layout crc blockOffset fs ++ layout crc (fs.foldl advance blockOffset) gs := by
  induction fs generalizing blockOffset with
  | nil => rfl
  | cons f fs ih =>
    simp only [List.cons_append, layout, List.foldl_cons, ih, List.append_assoc]

theorem take_avail_fits (blockOffset : Nat) (left : Bytes) :
    place blockOffset + (kHeaderSize + (left.take (avail blockOffset)).length) ≤ kBlockSize := by
  rw [List.length_take]
  unfold avail place
  simp only [kBlockSize, kHeaderSize]
  grind

/-- What the loop of `AddRecord` makes of a record. -/
theorem cut_fragments (blockOffset : Nat) (begins : Bool) (left : Bytes) :
    Cut blockOffset begins left (fragments blockOffset begins left) := by
  have hparts (blockOffset : Nat) (left : Bytes) :
      left.take (avail blockOffset) ++ left.drop (avail blockOffset) = left :=
    List.take_append_drop _ _
  induction blockOffset, begins, left using fragments.induct with
  | case1 blockOffset begins left rest f hrest ih =>
    have hf : f = (fragmentType begins false, left.take (avail blockOffset)) := by
      simp only [f, List.isEmpty_eq_false_iff.mpr hrest]
    rw [hf] at ih
    have hcut : Cut blockOffset begins (left.take (avail blockOffset) ++ rest) _ :=
      .more (take_avail_fits blockOffset left) ih
    rw [hparts] at hcut
    rw [fragments, if_pos hrest]
    show Cut blockOffset begins left (f :: fragments (advance blockOffset f) false rest)
    rw [hf]
    exact hcut
  | case2 blockOffset begins left rest hrest =>
    have hnil : left.drop (avail blockOffset) = [] := not_not.mp hrest
    have hwhole : left.take (avail blockOffset) = left := by
      rw [← List.append_nil (left.take _), ← hnil, hparts]
    have hfits := take_avail_fits blockOffset left
    rw [hwhole] at hfits
    rw [fragments, if_neg hrest, hnil, hwhole]
    exact .last hfits

/-! ## The writer writes the layout -/

namespace Writer

variable (crc : Crc32c)

theorem switchBlock_contents {w : Writer} (h : w.dest.Reliable) :
    w.switchBlock.dest.contents = w.dest.contents ++ padding w.blockOffset ∧
      w.switchBlock.dest.Reliable := by
  unfold switchBlock padding
  dsimp only
  split
  next hfull =>
    have happend := h.append (List.replicate (kBlockSize - w.blockOffset) 0)
    split
    next => exact happend.2
    next hzero =>
      rw [Nat.eq_zero_of_not_pos hzero, List.replicate_zero, List.append_nil]
      exact ⟨rfl, h⟩
  next => exact ⟨(List.append_nil _).symm, h⟩

theorem emitPhysicalRecord_contents {w : Writer} (h : w.dest.Reliable) (f : Fragment) :
    (w.emitPhysicalRecord crc f.1 f.2).2 = none ∧
      (w.emitPhysicalRecord crc f.1 f.2).1.dest.contents = w.dest.contents ++ framed crc f ∧
        (w.emitPhysicalRecord crc f.1 f.2).1.dest.Reliable := by
  obtain ⟨hheaded, hheader, h⟩ := h.append (header crc f.1 f.2)
  obtain ⟨hfilled, hfragment, h⟩ := h.append f.2
  obtain ⟨hflushed, hsame, h⟩ := h.append []
  unfold emitPhysicalRecord
  dsimp only
  rw [if_pos hheaded, if_pos hfilled]
  refine ⟨hflushed, ?_, h⟩
  rw [WritableFile.flush, hsame, hfragment, hheader, framed, List.append_nil, List.append_assoc]

/-- The writer after bytes that were laid out from its offset. -/
structure Wrote (w : Writer) (fs : List Fragment) (done : Writer × Option Bytes) : Prop where
  status : done.2 = none
  contents : done.1.dest.contents = w.dest.contents ++ layout crc w.blockOffset fs
  reliable : done.1.dest.Reliable
  blockOffset : done.1.blockOffset = fs.foldl advance w.blockOffset

variable {crc} in
theorem Wrote.append {w : Writer} {fs gs : List Fragment} {d e : Writer × Option Bytes}
    (hd : Wrote crc w fs d) (he : Wrote crc d.1 gs e) : Wrote crc w (fs ++ gs) e where
  status := he.status
  contents := by
    rw [he.contents, hd.contents, hd.blockOffset, layout_append, List.append_assoc]
  reliable := he.reliable
  blockOffset := by rw [he.blockOffset, hd.blockOffset, List.foldl_append]

theorem wrote_turn {w : Writer} (h : w.dest.Reliable) (f : Fragment) :
    Wrote crc w [f] (w.switchBlock.emitPhysicalRecord crc f.1 f.2) := by
  obtain ⟨hcontents, h⟩ := switchBlock_contents h
  obtain ⟨hstatus, hemitted, h⟩ := emitPhysicalRecord_contents crc h f
  refine ⟨hstatus, ?_, h, ?_⟩
  · rw [hemitted, hcontents, layout, layout, List.append_nil, List.append_assoc]
  · rw [List.foldl_cons, List.foldl_nil, advance, ← blockOffset_switchBlock]
    rfl

/-- The loop writes the fragments from its offset on. -/
theorem wrote_addFragments (begins : Bool) (left : Bytes) {w : Writer} (h : w.dest.Reliable) :
    Wrote crc w (fragments w.blockOffset begins left) (w.addFragments crc begins left) := by
  induction begins, left, w using addFragments.induct crc with
  | case1 begins left w switched avail rest emitted hgo ih =>
    have hturn := wrote_turn crc h (fragmentType begins rest.isEmpty, left.take avail)
    have hrest := hturn.append (ih hturn.reliable)
    rw [addFragments, if_pos hgo]
    rw [hturn.blockOffset] at hrest
    have havail : avail = Log.avail w.blockOffset := by
      rw [Log.avail, ← blockOffset_switchBlock]
    rw [fragments, ← havail, if_pos hgo.2]
    exact hrest
  | case2 begins left w switched avail rest emitted hstop =>
    have hturn := wrote_turn crc h (fragmentType begins rest.isEmpty, left.take avail)
    have hrest : ¬ rest ≠ [] := fun hne => hstop ⟨hturn.status, hne⟩
    have havail : avail = Log.avail w.blockOffset := by
      rw [Log.avail, ← blockOffset_switchBlock]
    rw [addFragments, if_neg hstop, fragments, ← havail, if_neg hrest]
    exact hturn

theorem wrote_addRecords (records : List Bytes) {w : Writer} (h : w.dest.Reliable) :
    Wrote crc w (recordFragments w.blockOffset records) (w.addRecords crc records) := by
  induction records generalizing w with
  | nil => exact ⟨rfl, (List.append_nil _).symm, h, rfl⟩
  | cons record records ih =>
    have hrecord : Wrote crc w (fragments w.blockOffset true record) (w.addRecord crc record) :=
      wrote_addFragments crc true record h
    have hrecords := hrecord.append (ih hrecord.reliable)
    rw [addRecords, if_pos hrecord.status]
    rw [hrecord.blockOffset] at hrecords
    exact hrecords

end Writer

end Log

end BloomHierarchy
