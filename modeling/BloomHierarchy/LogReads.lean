import BloomHierarchy.LogReader

/-!
# A log is read back

What the reader makes of a file that the writer wrote, or of the first bytes of
one: a writer that dies leaves a log that ends somewhere, maybe in the zeros at the
end of a block, in a header or in a fragment.

The reader is followed by its place in the log (`Reader.At`): the bytes that are
still to come, as far as they belong to the block are in the buffer. A fragment that
is there as a whole is returned and moves the reader on (`Reader.At.next`). Of one
that is not, nothing is returned, and nothing is reported (`Reader.At.torn`).

Results:
1. `Reader.readLoop_cut`, `Reader.readLoop_torn`: `ReadRecord` returns a record if all
   its fragments are there, and otherwise reports the end of the file;
2. `torn_log`: from the first `n` bytes of a log, the reader returns exactly the
   records that end within them, and reports no corruption.
-/

namespace BloomHierarchy

/-- Calls of a file without errors. -/
def SequentialFile.Reliable (f : SequentialFile) : Prop :=
  ∀ outcome ∈ f.outcomes, outcome = none

theorem SequentialFile.Reliable.read {f : SequentialFile} (h : f.Reliable) (n : Nat) :
    ∃ file, f.read n = (file, .ok (f.rest.take n)) ∧ file.rest = f.rest.drop n ∧
      file.Reliable := by
  unfold SequentialFile.read
  split
  next status outcomes hout =>
    have hnone := h (some status) (hout ▸ List.mem_cons_self)
    cases hnone
  next =>
    exact ⟨_, rfl, rfl, fun outcome hmem => h outcome (List.mem_of_mem_tail hmem)⟩

namespace Log

/-! ## One fragment -/

theorem typeNumber_code (t : RecordType) : typeNumber t.code = t.number := by
  cases t <;> rfl

/-- The two bytes of the length. -/
theorem length_of_bytes {n : Nat} (hn : n < 2 ^ 16) :
    (UInt8.ofNat n).toNat ||| ((UInt8.ofNat (n >>> 8)).toNat <<< 8) = n := by
  have hlow : (UInt8.ofNat n).toNat < 2 ^ 8 := (UInt8.ofNat n).toNat_lt
  rw [Nat.or_comm, ← Nat.shiftLeft_add_eq_or_of_lt hlow, Nat.shiftLeft_eq, UInt8.toNat_ofNat',
    UInt8.toNat_ofNat', Nat.shiftRight_eq_div_pow]
  omega

/-- The checksum in a header covers the type and the fragment. -/
theorem header_checksum (crc : Crc32c) (t : RecordType) (fragment : Bytes) :
    Crc32c.unmask (decodeFixed32 ((header crc t fragment).take 4)) =
      crc.value (t.code :: fragment) := by
  have htake : (header crc t fragment).take 4 =
      encodeFixed32 (Crc32c.mask (crc.extend (crc.value [t.code]) fragment)) := rfl
  rw [htake, decodeFixed32_encodeFixed32, Crc32c.unmask_mask, Crc32c.value, crc.extend_append]
  rfl

namespace Reader

variable {crc : Crc32c} {r : Reader} {f : Fragment}

/-- A whole fragment at the start of the buffer is returned. -/
theorem parsePhysicalRecord_framed {rest : Bytes} (hbuffer : r.buffer = framed crc f ++ rest)
    (hlength : f.2.length < 2 ^ 16) (htype : f.1 ≠ .zero) (hinitial : r.initialOffset = 0) :
    r.parsePhysicalRecord crc = (f.1.number, f.2, { r with buffer := rest }) := by
  have hlen : r.buffer.length = kHeaderSize + f.2.length + rest.length := by
    rw [hbuffer, List.length_append, length_framed]
  have hdecoded : (r.buffer.getD 4 0).toNat ||| ((r.buffer.getD 5 0).toNat <<< 8) =
      f.2.length := by
    rw [hbuffer]
    exact length_of_bytes hlength
  have hnumber : typeNumber (r.buffer.getD 6 0) = f.1.number := by
    rw [hbuffer]
    exact typeNumber_code f.1
  have hnonzero : f.1.number ≠ RecordType.zero.number := by
    intro h
    cases hf : f.1 <;> rw [hf] at h htype <;> first | exact htype rfl | exact absurd h (by decide)
  have hcovered : (r.buffer.drop 6).take (1 + f.2.length) = f.1.code :: f.2 := by
    have hdrop : r.buffer.drop 6 = (f.1.code :: f.2) ++ rest := by
      rw [hbuffer]
      rfl
    rw [hdrop]
    exact List.take_left' (by rw [List.length_cons, Nat.add_comm])
  have hchecksum : Crc32c.unmask (decodeFixed32 (r.buffer.take 4)) =
      crc.value (f.1.code :: f.2) := by
    rw [← header_checksum, hbuffer]
    rfl
  have hrest : r.buffer.drop (kHeaderSize + f.2.length) = rest := by
    rw [hbuffer]
    exact List.drop_left' (length_framed crc f)
  have hfragment : (r.buffer.drop kHeaderSize).take f.2.length = f.2 := by
    have hdrop : r.buffer.drop kHeaderSize = f.2 ++ rest := by
      rw [hbuffer]
      rfl
    rw [hdrop, List.take_left]
  unfold parsePhysicalRecord
  dsimp only
  rw [hdecoded, hnumber, hcovered, hchecksum, hrest, hfragment, if_neg (by omega),
    if_neg (by omega), if_neg (fun h => hnonzero h.1), if_neg (fun h => h.2 rfl), hinitial,
    if_neg UInt64.not_lt_zero]

/-- Of a fragment that is cut off at the end of the file nothing is returned. -/
theorem parsePhysicalRecord_torn {n : Nat} (hbuffer : r.buffer = (framed crc f).take n)
    (hcut : n < kHeaderSize + f.2.length) (hlength : f.2.length < 2 ^ 16) (heof : r.eof = true) :
    r.parsePhysicalRecord crc = (kEof, [], { r with buffer := [] }) := by
  have hlen : r.buffer.length = n := by
    rw [hbuffer, List.length_take, length_framed, Nat.min_eq_left hcut.le]
  unfold parsePhysicalRecord
  dsimp only
  split
  next => rfl
  next hheader =>
    -- the header is whole, so the length is known
    obtain ⟨m, hm⟩ := Nat.exists_eq_add_of_le (Nat.le_of_not_lt hheader)
    have hwhole : r.buffer = header crc f.1 f.2 ++ f.2.take m := by
      rw [hbuffer, framed, ← hlen, hm, List.take_append, length_header,
        Nat.add_sub_cancel_left, List.take_of_length_le (by rw [length_header]; omega)]
    have hdecoded : (r.buffer.getD 4 0).toNat ||| ((r.buffer.getD 5 0).toNat <<< 8) =
        f.2.length := by
      rw [hwhole]
      exact length_of_bytes hlength
    have hlong : kHeaderSize + f.2.length > r.buffer.length := by omega
    rw [hdecoded, if_pos hlong]

theorem parsePhysicalRecord_short (h : r.buffer.length < kHeaderSize) :
    r.parsePhysicalRecord crc = (kEof, [], { r with buffer := [] }) := by
  unfold parsePhysicalRecord
  dsimp only
  rw [if_pos h]

end Reader

/-! ## The reader's place in the log -/

/-- The reader is at an offset of a block and has `rest` in front of it. It began at the start
of the log. -/
structure Reader.At (r : Reader) (blockOffset : Nat) (rest : Bytes) : Prop where
  buffer : r.buffer = rest.take (kBlockSize - blockOffset)
  file : r.file.rest = rest.drop (kBlockSize - blockOffset)
  eof : r.eof = decide (rest.length < kBlockSize - blockOffset)
  reliable : r.file.Reliable
  initialOffset : r.initialOffset = 0
  resyncing : r.resyncing = false

/-- Where a fragment ends that is put behind an offset, counted from there. -/
def endOf (blockOffset : Nat) (f : Fragment) : Nat :=
  (padding blockOffset).length + (kHeaderSize + f.2.length)

theorem length_layout_cons (crc : Crc32c) (blockOffset : Nat) (f : Fragment)
    (fs : List Fragment) :
    (layout crc blockOffset (f :: fs)).length =
      endOf blockOffset f + (layout crc (advance blockOffset f) fs).length := by
  rw [layout, List.length_append, List.length_append, length_framed, endOf, ← Nat.add_assoc]

theorem place_add_kHeaderSize_le (blockOffset : Nat) :
    place blockOffset + kHeaderSize ≤ kBlockSize := by
  unfold place
  split
  next => decide
  next hroom =>
    have hheader : 0 < kHeaderSize := by decide
    omega

theorem length_padding (blockOffset : Nat) :
    (padding blockOffset).length =
      if kBlockSize - blockOffset < kHeaderSize then kBlockSize - blockOffset else 0 := by
  unfold padding
  split
  next => exact List.length_replicate
  next => rfl

namespace Reader

variable {crc : Crc32c} {r : Reader} {blockOffset : Nat} {rest : Bytes}

theorem At.length_buffer (h : r.At blockOffset rest) :
    r.buffer.length = min (kBlockSize - blockOffset) rest.length := by
  rw [h.buffer, List.length_take]

/-- The zeros at the end of a block are passed over. -/
theorem At.place (crc : Crc32c) (h : r.At blockOffset rest) :
    ∃ r' : Reader, r.readPhysicalRecord crc = r'.parsePhysicalRecord crc ∧ r'.reports = r.reports ∧
      r'.At (place blockOffset) (rest.drop (padding blockOffset).length) := by
  have hlen := h.length_buffer
  have heof := h.eof
  rw [length_padding, Log.place]
  unfold readPhysicalRecord
  by_cases hfull : kBlockSize - blockOffset < kHeaderSize
  · rw [if_pos hfull, if_pos hfull]
    by_cases hcut : rest.length < kBlockSize - blockOffset
    · -- the log ends in the zeros
      rw [decide_eq_true hcut] at heof
      rw [if_neg (fun hread => by rw [heof] at hread; cases hread.2)]
      refine ⟨{ r with buffer := [] }, ?_, rfl, ?_⟩
      · rw [parsePhysicalRecord_short (by omega),
          parsePhysicalRecord_short (show ([] : Bytes).length < kHeaderSize by decide)]
      · rw [List.drop_eq_nil_of_le hcut.le]
        exact ⟨rfl, h.file.trans (List.drop_eq_nil_of_le hcut.le), heof, h.reliable,
          h.initialOffset, h.resyncing⟩
    · -- the next block is read
      rw [decide_eq_false hcut] at heof
      rw [if_pos ⟨by omega, heof⟩]
      obtain ⟨file, hread, hfile, hreliable⟩ := h.reliable.read kBlockSize
      rw [hread]
      refine ⟨_, rfl, rfl, ⟨?_, ?_, ?_, hreliable, h.initialOffset, h.resyncing⟩⟩
      · exact congrArg (List.take kBlockSize) h.file
      · exact hfile.trans (congrArg (List.drop kBlockSize) h.file)
      · show decide ((r.file.rest.take kBlockSize).length < kBlockSize) = _
        rw [h.file, List.length_take, Nat.sub_zero]
        exact decide_eq_decide.mpr (by omega)
  · rw [if_neg hfull, if_neg hfull]
    have hread : ¬ (r.buffer.length < kHeaderSize ∧ r.eof = false) := by
      rintro ⟨hshort, hmore⟩
      rw [heof, decide_eq_false_iff_not] at hmore
      omega
    rw [if_neg hread]
    exact ⟨r, rfl, rfl, h⟩

/-- What is behind the zeros. -/
theorem drop_padding (crc : Crc32c) (blockOffset : Nat) (f : Fragment) (fs : List Fragment)
    (n : Nat) :
    ((layout crc blockOffset (f :: fs)).take n).drop (padding blockOffset).length =
      (framed crc f ++ layout crc (advance blockOffset f) fs).take
        (n - (padding blockOffset).length) := by
  rw [List.drop_take, layout, List.drop_left]

/-- A fragment that is there is returned. -/
theorem At.next {f : Fragment} {fs : List Fragment} {n : Nat}
    (h : r.At blockOffset ((layout crc blockOffset (f :: fs)).take n))
    (hfit : Log.place blockOffset + (kHeaderSize + f.2.length) ≤ kBlockSize) (htype : f.1 ≠ .zero)
    (hn : endOf blockOffset f ≤ n) :
    ∃ r', r.readPhysicalRecord crc = (f.1.number, f.2, r') ∧ r'.reports = r.reports ∧
      r'.At (advance blockOffset f)
        ((layout crc (advance blockOffset f) fs).take (n - endOf blockOffset f)) := by
  obtain ⟨r', hread, hreports, hat⟩ := h.place crc
  have hframed := length_framed crc f
  have hrest : (framed crc f ++ layout crc (advance blockOffset f) fs).take
      (n - (padding blockOffset).length) =
        framed crc f ++ (layout crc (advance blockOffset f) fs).take (n - endOf blockOffset f) := by
    unfold endOf at hn ⊢
    rw [List.take_append, List.take_of_length_le (by omega), hframed, Nat.sub_sub]
  rw [drop_padding, hrest] at hat
  generalize (layout crc (advance blockOffset f) fs).take (n - endOf blockOffset f) = rest at hat ⊢
  have hroom : kBlockSize - advance blockOffset f =
      kBlockSize - Log.place blockOffset - (framed crc f).length := by
    rw [advance, hframed, Nat.sub_sub]
  have hbuffer : r'.buffer = framed crc f ++ rest.take (kBlockSize - advance blockOffset f) := by
    rw [hat.buffer, List.take_append, List.take_of_length_le (by omega), hroom]
  have hlength : f.2.length < 2 ^ 16 := by
    unfold kBlockSize at hfit
    omega
  refine ⟨_, hread.trans (parsePhysicalRecord_framed hbuffer hlength htype hat.initialOffset),
    hreports, rfl, ?_, ?_, hat.reliable, hat.initialOffset, hat.resyncing⟩
  · refine hat.file.trans ?_
    rw [List.drop_append, List.drop_eq_nil_of_le (by omega), List.nil_append, hroom]
  · refine hat.eof.trans (decide_eq_decide.mpr ?_)
    rw [List.length_append, hroom]
    omega

/-- A fragment that is cut off ends the file. -/
theorem At.torn {f : Fragment} {fs : List Fragment} {n : Nat}
    (h : r.At blockOffset ((layout crc blockOffset (f :: fs)).take n))
    (hfit : Log.place blockOffset + (kHeaderSize + f.2.length) ≤ kBlockSize)
    (hn : n < endOf blockOffset f) :
    ∃ r', r.readPhysicalRecord crc = (kEof, [], r') ∧ r'.reports = r.reports ∧
      r'.resyncing = false := by
  obtain ⟨r', hread, hreports, hat⟩ := h.place crc
  have hframed := length_framed crc f
  have hcut : n - (padding blockOffset).length < kHeaderSize + f.2.length := by
    unfold endOf at hn
    have hheader : 0 < kHeaderSize := by decide
    omega
  rw [drop_padding, List.take_append_of_le_length (by omega)] at hat
  have hbuffer : r'.buffer = (framed crc f).take (n - (padding blockOffset).length) := by
    rw [hat.buffer, List.take_take, Nat.min_eq_right (by omega)]
  have heof : r'.eof = true := by
    refine hat.eof.trans (decide_eq_true ?_)
    rw [List.length_take]
    omega
  have hlength : f.2.length < 2 ^ 16 := by
    unfold kBlockSize at hfit
    omega
  exact ⟨_, hread.trans (parsePhysicalRecord_torn hbuffer hcut hlength heof), hreports,
    hat.resyncing⟩

/-- The end of the log. -/
theorem At.nil (crc : Crc32c) (h : r.At blockOffset []) :
    ∃ r', r.readPhysicalRecord crc = (kEof, [], r') ∧ r'.reports = r.reports ∧
      r'.resyncing = false := by
  have hcut : r.At blockOffset ((layout crc blockOffset [(.full, [])]).take 0) := h
  refine hcut.torn (place_add_kHeaderSize_le blockOffset) ?_
  exact Nat.lt_of_lt_of_le (by decide) (Nat.le_add_left _ _)

end Reader

/-! ## One record -/

namespace ReadState

variable {crc : Crc32c} {s : ReadState} {blockOffset : Nat} {f : Fragment} {fs : List Fragment}
  {n : Nat}

theorem turn_fragment (h : s.reader.At blockOffset ((layout crc blockOffset (f :: fs)).take n))
    (hfit : place blockOffset + (kHeaderSize + f.2.length) ≤ kBlockSize) (htype : f.1 ≠ .zero)
    (hn : endOf blockOffset f ≤ n) :
    ∃ r offset, s.turn crc = { s with reader := r }.dispatch f.1.number f.2 offset ∧
      r.reports = s.reader.reports ∧
      r.At (advance blockOffset f)
        ((layout crc (advance blockOffset f) fs).take (n - endOf blockOffset f)) := by
  obtain ⟨r, hread, hreports, hat⟩ := h.next hfit htype hn
  have hsame : { r with resyncing := false } = r := by rw [← hat.resyncing]
  refine ⟨r, r.endOfBufferOffset - UInt64.ofNat r.buffer.length - UInt64.ofNat kHeaderSize -
    UInt64.ofNat f.2.length, ?_, hreports, hat⟩
  unfold turn
  dsimp only
  rw [hread, if_neg (fun hsync => by rw [hat.resyncing] at hsync; cases hsync.1),
    if_neg (fun hsync => by rw [hat.resyncing] at hsync; cases hsync.1), hsame]

theorem turn_eof {r : Reader} (hread : s.reader.readPhysicalRecord crc = (kEof, [], r))
    (hsync : r.resyncing = false) : s.turn crc = .done none r := by
  have hsame : { r with resyncing := false } = r := by rw [← hsync]
  unfold turn
  dsimp only
  have hmiddle : kEof ≠ RecordType.middle.number := by decide
  have hlast : kEof ≠ RecordType.last.number := by decide
  rw [hread, if_neg (fun h => hmiddle h.2), if_neg (fun h => hlast h.2), hsame]
  rfl

/-- The last fragment of a record. -/
theorem dispatch_ends {begins : Bool} (hin : s.inFragmentedRecord = !begins)
    (hscratch : begins = true → s.scratch = []) (fragment : Bytes) (offset : UInt64) :
    ∃ lastRecordOffset, s.dispatch (fragmentType begins true).number fragment offset =
      .done (some (s.scratch ++ fragment)) { s.reader with lastRecordOffset } := by
  cases begins with
  | true =>
    refine ⟨offset, ?_⟩
    show Turn.done (some fragment) { s.reportPartial _ with lastRecordOffset := offset } = _
    rw [reportPartial, hin, hscratch rfl]
    rfl
  | false =>
    refine ⟨s.prospectiveRecordOffset, ?_⟩
    show (if s.inFragmentedRecord = true then _ else _) = _
    rw [hin]
    rfl

/-- A fragment that is not the last one. -/
theorem dispatch_goesOn {begins : Bool} (hin : s.inFragmentedRecord = !begins)
    (hscratch : begins = true → s.scratch = []) (fragment : Bytes) (offset : UInt64) :
    ∃ next, s.dispatch (fragmentType begins false).number fragment offset = .next next ∧
      next.reader = s.reader ∧ next.inFragmentedRecord = true ∧
        next.scratch = s.scratch ++ fragment := by
  cases begins with
  | true =>
    refine ⟨_, rfl, ?_, rfl, by rw [hscratch rfl]; rfl⟩
    show s.reportPartial _ = s.reader
    rw [reportPartial, hin]
    rfl
  | false =>
    refine ⟨{ s with scratch := s.scratch ++ fragment }, ?_, rfl, hin, rfl⟩
    show (if s.inFragmentedRecord = true then _ else _) = _
    rw [hin]
    rfl

end ReadState

theorem fragmentType_ne_zero (begins ends : Bool) : fragmentType begins ends ≠ .zero := by
  cases begins <;> cases ends <;> decide

namespace Reader

variable {crc : Crc32c}

/-- `ReadRecord` over the fragments of one record, from any of them on: the record is returned
if they are all there. -/
theorem readLoop_cut {blockOffset : Nat} {begins : Bool} {left : Bytes} {fs gs : List Fragment}
    {n : Nat} {s : ReadState} (hcut : Cut blockOffset begins left fs)
    (hat : s.reader.At blockOffset ((layout crc blockOffset (fs ++ gs)).take n))
    (hin : s.inFragmentedRecord = !begins) (hscratch : begins = true → s.scratch = [])
    (hn : (layout crc blockOffset fs).length ≤ n) :
    ∃ r, readLoop crc s = (some (s.scratch ++ left), r) ∧ r.reports = s.reader.reports ∧
      r.At (fs.foldl advance blockOffset) ((layout crc (fs.foldl advance blockOffset) gs).take
        (n - (layout crc blockOffset fs).length)) := by
  induction hcut generalizing s n with
  | @last blockOffset begins fragment hfit =>
    rw [length_layout_cons] at hn ⊢
    obtain ⟨r, offset, hturn, hreports, hnext⟩ :=
      ReadState.turn_fragment hat hfit (fragmentType_ne_zero _ _) (Nat.le_of_add_right_le hn)
    obtain ⟨lastRecordOffset, hdispatch⟩ :=
      ReadState.dispatch_ends (s := { s with reader := r }) hin hscratch fragment offset
    exact ⟨{ r with lastRecordOffset }, readLoop_done crc (hturn.trans hdispatch), hreports,
      hnext.buffer, hnext.file, hnext.eof, hnext.reliable, hnext.initialOffset, hnext.resyncing⟩
  | @more blockOffset begins fragment left fs hfit _ ih =>
    rw [length_layout_cons] at hn ⊢
    obtain ⟨r, offset, hturn, hreports, hnext⟩ :=
      ReadState.turn_fragment hat hfit (fragmentType_ne_zero _ _) (Nat.le_of_add_right_le hn)
    obtain ⟨next, hdispatch, hreader, hnextIn, hnextScratch⟩ :=
      ReadState.dispatch_goesOn (s := { s with reader := r }) hin hscratch fragment offset
    obtain rfl : next.reader = r := hreader
    obtain ⟨r', hloop, hreports', hat'⟩ := ih hnext hnextIn nofun (Nat.le_sub_of_add_le' hn)
    refine ⟨r', ?_, hreports'.trans hreports, ?_⟩
    · rw [readLoop_next crc (hturn.trans hdispatch), hloop, hnextScratch, List.append_assoc]
    · rw [← Nat.sub_sub]
      exact hat'

theorem readLoop_eof {s : ReadState} {r : Reader}
    (hread : s.reader.readPhysicalRecord crc = (kEof, [], r)) (hsync : r.resyncing = false) :
    readLoop crc s = (none, r) :=
  readLoop_done crc (ReadState.turn_eof hread hsync)

/-- If one of the fragments is cut off, the record is ignored. -/
theorem readLoop_torn {blockOffset : Nat} {begins : Bool} {left : Bytes} {fs gs : List Fragment}
    {n : Nat} {s : ReadState} (hcut : Cut blockOffset begins left fs)
    (hat : s.reader.At blockOffset ((layout crc blockOffset (fs ++ gs)).take n))
    (hin : s.inFragmentedRecord = !begins) (hscratch : begins = true → s.scratch = [])
    (hn : n < (layout crc blockOffset fs).length) :
    ∃ r, readLoop crc s = (none, r) ∧ r.reports = s.reader.reports := by
  induction hcut generalizing s n with
  | @last blockOffset begins fragment hfit =>
    obtain ⟨r, hread, hreports, hsync⟩ := hat.torn hfit (by rwa [length_layout_cons] at hn)
    exact ⟨r, readLoop_eof hread hsync, hreports⟩
  | @more blockOffset begins fragment left fs hfit _ ih =>
    rw [length_layout_cons] at hn
    rcases Nat.lt_or_ge n (endOf blockOffset (fragmentType begins false, fragment)) with
      hshort | hwhole
    · obtain ⟨r, hread, hreports, hsync⟩ := hat.torn hfit hshort
      exact ⟨r, readLoop_eof hread hsync, hreports⟩
    · obtain ⟨r, offset, hturn, hreports, hnext⟩ :=
        ReadState.turn_fragment hat hfit (fragmentType_ne_zero _ _) hwhole
      obtain ⟨next, hdispatch, hreader, hnextIn, -⟩ :=
        ReadState.dispatch_goesOn (s := { s with reader := r }) hin hscratch fragment offset
      obtain rfl : next.reader = r := hreader
      obtain ⟨r', hloop, hreports'⟩ :=
        ih hnext hnextIn nofun (Nat.sub_lt_left_of_lt_add hwhole hn)
      exact ⟨r', (readLoop_next crc (hturn.trans hdispatch)).trans hloop,
        hreports'.trans hreports⟩

/-! ## All records -/

variable {r next : Reader} {record : Bytes}

theorem readRecords_some (h : r.readRecord crc = (some record, next)) :
    r.readRecords crc = (record :: (next.readRecords crc).1, (next.readRecords crc).2) := by
  rw [readRecords]
  split
  next found reader hfound =>
    rw [h] at hfound
    cases hfound
    rfl
  next hfound =>
    rw [h] at hfound
    cases hfound

theorem readRecords_none (h : r.readRecord crc = (none, next)) :
    r.readRecords crc = ([], next) := by
  rw [readRecords]
  split
  next hfound =>
    rw [h] at hfound
    cases hfound
  next hfound =>
    rw [h] at hfound
    cases hfound
    rfl

theorem At.readRecord {blockOffset : Nat} {rest : Bytes} (h : r.At blockOffset rest) :
    r.readRecord crc = readLoop crc { reader := r } := by
  rw [Reader.readRecord, h.initialOffset, if_neg UInt64.not_lt_zero]

/-- The records that end within the first `n` bytes are read, and nothing is reported. -/
theorem readRecords_layout (records : List Bytes) {blockOffset n : Nat}
    (hat : r.At blockOffset
      ((layout crc blockOffset (recordFragments blockOffset records)).take n)) :
    ∃ k, (r.readRecords crc).1 = records.take k ∧ (r.readRecords crc).2.reports = r.reports ∧
      ∀ i ≤ records.length, i ≤ k ↔
        (layout crc blockOffset (recordFragments blockOffset (records.take i))).length ≤ n := by
  induction records generalizing r blockOffset n with
  | nil =>
    have hnil : r.At blockOffset [] := by
      rw [recordFragments, layout, List.take_nil] at hat
      exact hat
    obtain ⟨r', hread, hreports, hsync⟩ := hnil.nil crc
    rw [readRecords_none (hat.readRecord.trans (readLoop_eof hread hsync))]
    refine ⟨0, rfl, hreports, fun i hi => ?_⟩
    rw [Nat.le_zero.mp hi]
    exact ⟨fun _ => Nat.zero_le _, fun _ => Nat.le_refl _⟩
  | cons record records ih =>
    have hcut := cut_fragments blockOffset true record
    have hsize (i : Nat) :
        (layout crc blockOffset
            (recordFragments blockOffset ((record :: records).take (i + 1)))).length =
          (layout crc blockOffset (fragments blockOffset true record)).length +
            (layout crc ((fragments blockOffset true record).foldl advance blockOffset)
              (recordFragments ((fragments blockOffset true record).foldl advance blockOffset)
                (records.take i))).length := by
      rw [List.take_succ_cons, recordFragments, layout_append, List.length_append]
    rw [recordFragments] at hat
    rcases Nat.lt_or_ge n (layout crc blockOffset (fragments blockOffset true record)).length with
      hshort | hwhole
    · obtain ⟨r', hloop, hreports⟩ :=
        readLoop_torn (s := { reader := r }) hcut hat rfl (fun _ => rfl) hshort
      rw [readRecords_none (hat.readRecord.trans hloop)]
      refine ⟨0, rfl, hreports, fun i _ => ?_⟩
      cases i with
      | zero => exact ⟨fun _ => Nat.zero_le _, fun _ => Nat.le_refl _⟩
      | succ i =>
        rw [hsize]
        omega
    · obtain ⟨r', hloop, hreports, hat'⟩ :=
        readLoop_cut (s := { reader := r }) hcut hat rfl (fun _ => rfl) hwhole
      obtain ⟨k, hrecords, hreports', hcount⟩ := ih hat'
      rw [readRecords_some (hat.readRecord.trans hloop)]
      refine ⟨k + 1, congrArg (record :: ·) hrecords, hreports'.trans hreports, fun i hi => ?_⟩
      cases i with
      | zero => exact ⟨fun _ => Nat.zero_le _, fun _ => Nat.zero_le _⟩
      | succ i =>
        have hrest := hcount i (Nat.le_of_succ_le_succ hi)
        rw [hsize]
        omega

end Reader

/-! ## A log from its start -/

/-- The file that a new writer leaves. -/
def logFile (crc : Crc32c) (records : List Bytes) : Bytes :=
  (({ dest := {} } : Writer).addRecords crc records).1.dest.contents

theorem logFile_eq (crc : Crc32c) (records : List Bytes) :
    logFile crc records = layout crc 0 (recordFragments 0 records) :=
  (Writer.wrote_addRecords crc records (w := { dest := {} }) nofun).contents

/-- A full block is as good as the start of an empty one. -/
theorem fragments_kBlockSize (begins : Bool) (left : Bytes) :
    fragments kBlockSize begins left = fragments 0 begins left := by
  rw [fragments, fragments.eq_1 0]
  rfl

theorem layout_kBlockSize (crc : Crc32c) (records : List Bytes) :
    layout crc kBlockSize (recordFragments kBlockSize records) =
      layout crc 0 (recordFragments 0 records) := by
  cases records with
  | nil => rfl
  | cons record records =>
    rw [recordFragments, recordFragments, fragments_kBlockSize]
    cases hcut : fragments 0 true record with
    | nil =>
      have hnone := hcut ▸ cut_fragments 0 true record
      cases hnone
    | cons f fs => rfl

/-- A new reader is in front of all bytes of its file. -/
theorem Reader.at_start (contents : Bytes) (checksum : Bool) :
    Reader.At { file := { rest := contents }, checksum, initialOffset := 0 } kBlockSize contents :=
  ⟨rfl, rfl, rfl, nofun, rfl, rfl⟩

theorem Reader.At.readRecords_logFile {crc : Crc32c} {r : Reader} {records : List Bytes} {n : Nat}
    (hat : r.At kBlockSize ((logFile crc records).take n)) :
    ∃ k, (r.readRecords crc).1 = records.take k ∧ (r.readRecords crc).2.reports = r.reports ∧
      ∀ i ≤ records.length, i ≤ k ↔ (logFile crc (records.take i)).length ≤ n := by
  simp only [logFile_eq, ← layout_kBlockSize] at hat ⊢
  exact readRecords_layout records hat

/-- A reader of the first `n` bytes of a log returns the records that end within them, in their
order, and reports no corruption. -/
theorem torn_log (crc : Crc32c) (records : List Bytes) (n : Nat) (checksum : Bool) :
    ∃ k,
      (Reader.readRecords crc
        { file := { rest := (logFile crc records).take n }, checksum, initialOffset := 0 }).1 =
          records.take k ∧
      (Reader.readRecords crc
        { file := { rest := (logFile crc records).take n }, checksum,
          initialOffset := 0 }).2.reports = [] ∧
      ∀ i ≤ records.length, i ≤ k ↔ (logFile crc (records.take i)).length ≤ n :=
  (Reader.at_start _ checksum).readRecords_logFile

end Log

end BloomHierarchy
