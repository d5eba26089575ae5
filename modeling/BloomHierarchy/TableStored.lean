import BloomHierarchy.DbCreation
import BloomHierarchy.TableReads

/-!
# The tables of a database

`DbCreation` describes a table file by its entries and takes the reader as a
parameter. Here the files have the bytes that the table builder writes, and the
reader is `Table::Open` with a pass of the table's iterator, as in `DumpTable`.

`DumpTable` opens every table with the default options, so with the bytewise
comparator and without a filter policy, whatever the table was written with. Its
pass needs no comparison. The pass is bounded by a number of steps; every number
that is not below the number of entries gives the same result.

Results:

1. `WrittenIn.storedIn`: a directory with the bytes of the tables is one that the
   scan was proved for;
2. `scan_of_tables`: the scan of such a directory counts the entries that were
   written under the text that is printed for their value, from the bytes of the
   files to the number that is printed;
3. `table_lookup`: a lookup of a user key at a sequence number finds the first
   version in the table that is not newer, and nothing of another key.
-/

namespace BloomHierarchy

/-! ## A pass over a table -/

/-- `Options()`. -/
def defaultOptions : TableOptions where
  comparator := bytewiseComparator
  blockSize := 4096
  blockRestartInterval := 16
  compression := .snappy
  filterPolicy := none

/-- The part of `DumpTable` that reads. `none` is an error of `Open`. -/
def readTable (port : Port) (mapped : Bool) (fuel : Nat) (contents : Bytes) :
    Option TableIterator :=
  let file : RandomAccessFile := { filename := [], contents, mapped }
  match Table.openTable port defaultOptions file contents.length with
  | .error _ => none
  | .ok t =>
    let ops := t.ops port false
    let pass := Cursor.scan ops fuel (ops.seekToFirst t.newIterator)
    some { entries := pass.1, status := ops.status pass.2 }

/-- The bytes were written as a table with these entries. -/
structure WrittenAs (port : Port) (w : TableOptions) (contents : Bytes)
    (entries : List (Bytes × Bytes)) : Prop where
  interval : 1 ≤ w.blockRestartInterval
  built : ∃ outcomes, (buildTable port w outcomes entries).status = none ∧
    contents = (buildTable port w outcomes entries).file.contents
  size : tableSize entries < 2 ^ 32
  length : contents.length < 2 ^ 32

theorem readTable_written {port : Port} {w : TableOptions} {contents : Bytes}
    {entries : List (Bytes × Bytes)} (h : WrittenAs port w contents entries) (mapped : Bool)
    {fuel : Nat} (hfuel : entries.length ≤ fuel) :
    readTable port mapped fuel contents = some { entries } := by
  obtain ⟨outcomes, hok, hcontents⟩ := h.built
  let file : RandomAccessFile := { filename := [], contents, mapped }
  have hfile : file.contents = (buildTable port w outcomes entries).file.contents := hcontents
  obtain ⟨t, img, hopen, -, hopened⟩ :=
    openTable_buildTable h.interval hok h.size defaultOptions hfile h.length
  have hsim := hopened.simulates false
  obtain ⟨hentries, hend⟩ := hsim.scan_eq (hsim.seekToFirst hopened.newIterator)
    (by omega : entries.length - 0 ≤ fuel)
  unfold readTable
  dsimp only
  rw [show Table.openTable port defaultOptions { filename := [], contents, mapped }
    contents.length = .ok t from hopen]
  dsimp only
  rw [hentries, hsim.status hend, List.drop_zero]

/-- A file without a footer is not a table. -/
def NoFooter (contents : Bytes) : Prop :=
  contents.length < Footer.kEncodedLength ∨
    ∃ status, Footer.decodeFrom (contents.drop (contents.length - Footer.kEncodedLength)) =
      .error status

theorem readTable_noFooter {contents : Bytes} (h : NoFooter contents) (port : Port) (mapped : Bool)
    (fuel : Nat) : readTable port mapped fuel contents = none := by
  unfold readTable Table.openTable
  dsimp only
  rcases Nat.lt_or_ge contents.length Footer.kEncodedLength with hshort | hlong
  · rw [if_pos hshort]
  · obtain ⟨status, hstatus⟩ := h.resolve_left (Nat.not_lt.mpr hlong)
    have hread : RandomAccessFile.read { filename := [], contents, mapped }
        (contents.length - Footer.kEncodedLength) Footer.kEncodedLength =
        .ok (contents.drop (contents.length - Footer.kEncodedLength)) := by
      have hinside : ¬ contents.length <
          contents.length - Footer.kEncodedLength + Footer.kEncodedLength := by omega
      rw [RandomAccessFile.read, if_neg (fun hout => hinside hout.2)]
      congr 1
      refine List.take_of_length_le ?_
      show (contents.drop (contents.length - Footer.kEncodedLength)).length ≤ Footer.kEncodedLength
      rw [List.length_drop]
      omega
    rw [if_neg (Nat.not_lt.mpr hlong), hread]
    dsimp only
    rw [hstatus]

/-! ## The scan of a directory -/

/-- The directory has the bytes of the table files; unfinished ones have no footer. -/
structure WrittenIn (port : Port) (w : TableOptions) (s : Store) (d : Directory) : Prop where
  accessible : d.Accessible
  names : ∀ stem, stem ++ dataExt ∈ d.names ↔
    ∃ f ∈ s.files, tableFileName f.fileNumber = stem ++ dataExt
  finished : ∀ f ∈ s.files, ∀ contents entries,
    d.contents? (tableFileName f.fileNumber) = some contents → f.table = some entries →
      WrittenAs port w contents (entries.map Entry.encoded)
  unfinished : ∀ f ∈ s.files, ∀ contents,
    d.contents? (tableFileName f.fileNumber) = some contents → f.table = none → NoFooter contents

section Scan
variable {port : Port} {w : TableOptions} {s : Store} {d : Directory}

theorem WrittenIn.storedIn (h : WrittenIn port w s d) (mapped : Bool) {fuel : Nat}
    (hfuel : ∀ f ∈ s.files, f.entries.length ≤ fuel) :
    StoredIn (readTable port mapped fuel) s d where
  accessible := h.accessible
  names := h.names
  tables := by
    intro f hf contents hcontents
    cases htable : f.table with
    | none => exact readTable_noFooter (h.unfinished f hf contents hcontents htable) port mapped fuel
    | some entries =>
      have hlength := hfuel f hf
      rw [TableFile.entries, htable, Option.getD_some] at hlength
      exact readTable_written (h.finished f hf contents entries hcontents htable) mapped
        (by rwa [List.length_map])

/-- The size of a table bounds the lines of its dump. -/
theorem WrittenIn.length_dumpLine (h : WrittenIn port w s d) :
    ∀ f ∈ s.files, ∀ e ∈ f.entries, (dumpLine e.encoded.1 e.encoded.2).length < 2 ^ 63 := by
  intro f hf e he
  obtain ⟨contents, hcontents⟩ : ∃ contents,
      d.contents? (tableFileName f.fileNumber) = some contents := by
    refine Option.ne_none_iff_exists'.mp fun hnone => ?_
    exact Directory.contents?_eq_none.mp hnone ((h.names _).mpr ⟨f, hf, rfl⟩)
  cases htable : f.table with
  | none =>
    rw [TableFile.entries, htable] at he
    cases he
  | some entries =>
    rw [TableFile.entries, htable, Option.getD_some] at he
    have hsize := (h.finished f hf contents entries hcontents htable).size
    have hmem := List.mem_map_of_mem (f := Entry.encoded) he
    have hle := le_entriesSize 39 hmem
    have hline := length_dumpLine_le e
    have hkey : e.userKey.length ≤ e.encoded.1.length := by
      show e.userKey.length ≤ (e.key.userKey ++ _).length
      rw [List.length_append]
      exact Nat.le_add_right _ _
    have hvalue : e.encoded.2.length = e.value.length := rfl
    unfold tableSize at hsize
    omega

/-- The scan counts the entries whose record has the value, whatever options the tables were
written with. If no key and no value holds a quote, these are the entries whose escaped
value it is. -/
theorem scan_of_tables (h : WrittenIn port w s d)
    (hnumbers : (s.files.map TableFile.fileNumber).Nodup) (mapped : Bool) {fuel : Nat}
    (hfuel : ∀ f ∈ s.files, f.entries.length ≤ fuel) (order : ReaddirOrder) (value : Bytes) :
    scanningWithoutBloom (dumpFile (readTable port mapped fuel)) d order value =
      ((s.files.flatMap TableFile.entries).countP fun e =>
        (recordOf (dumpLine (appendInternalKey e.key) e.value)).valData = value) ∧
    ((∀ f ∈ s.files, ∀ e ∈ f.entries, quote ∉ e.userKey ∧ quote ∉ e.value) →
      scanningWithoutBloom (dumpFile (readTable port mapped fuel)) d order value =
        (s.files.flatMap TableFile.entries).countP fun e => escapeString e.value = value) := by
  have hscan := scanningWithoutBloom_stored (h.storedIn mapped hfuel) hnumbers h.length_dumpLine
    order value
  refine ⟨hscan, fun hquote => ?_⟩
  rw [hscan]
  refine List.countP_congr fun e he => ?_
  obtain ⟨f, hf, he⟩ := List.mem_flatMap.mp he
  obtain ⟨hkey, hvalue⟩ := hquote f hf e he
  rw [Entry.dumped_eq hkey hvalue]

end Scan

namespace TwoVersions

theorem three_le : 3 ≤ kMaxSequenceNumber := by decide

theorem one_le : 1 ≤ kMaxSequenceNumber := by decide

/-- Two versions of the key `b`, the newer one first; the byte 7 is not printable. -/
def entries : List Entry :=
  [⟨⟨[98], 3, .value, three_le⟩, [50, 7]⟩, ⟨⟨[98], 1, .value, one_le⟩, [49]⟩]

def contents : Bytes :=
  (buildTable SmallTable.port SmallTable.options [] (entries.map Entry.encoded)).file.contents

theorem writtenAs :
    WrittenAs SmallTable.port SmallTable.options contents (entries.map Entry.encoded) where
  interval := by decide
  built := ⟨[], by decide +kernel, rfl⟩
  size := by decide +kernel
  length := by decide +kernel

def store : Store where
  tables := [⟨5, some entries⟩]
  leftovers := [⟨6, none⟩]

/-- The second file was not finished. -/
def directory : Directory where
  path := ascii ['d']
  files := [(tableFileName 5, contents), (tableFileName 6, [0])]
  nodup := by decide +kernel

theorem names_ne : tableFileName 5 ≠ tableFileName 6 := by decide +kernel

theorem writtenIn : WrittenIn SmallTable.port SmallTable.options store directory where
  accessible := ⟨rfl, fun _ => rfl, fun _ => rfl⟩
  names stem := by
    show stem ++ dataExt ∈ [tableFileName 5, tableFileName 6] ↔
      ∃ f ∈ [TableFile.mk 5 (some entries), TableFile.mk 6 none], _
    simp [eq_comm]
  finished := by
    intro f hf table found hcontents htable
    have hmem := Directory.contents?_eq_some.mp hcontents
    rcases List.mem_cons.mp hf with rfl | hf
    · cases htable
      rcases List.mem_cons.mp hmem with heq | hmem
      · cases heq
        exact writtenAs
      · exact absurd (congrArg Prod.fst (List.mem_singleton.mp hmem)) names_ne
    · rw [List.mem_singleton.mp hf] at htable
      cases htable
  unfinished := by
    intro f hf table hcontents htable
    have hmem := Directory.contents?_eq_some.mp hcontents
    rcases List.mem_cons.mp hf with rfl | hf
    · cases htable
    · rw [List.mem_singleton.mp hf] at hmem
      rcases List.mem_cons.mp hmem with heq | hmem
      · exact absurd (congrArg Prod.fst heq).symm names_ne
      · cases List.mem_singleton.mp hmem
        exact .inl (by decide)

end TwoVersions

/-- The value with the byte 7 is found as the text that it is printed as. -/
theorem scan_of_tables_twoVersions :
    WrittenIn SmallTable.port SmallTable.options TwoVersions.store TwoVersions.directory ∧
    scanningWithoutBloom (dumpFile (readTable SmallTable.port true 2)) TwoVersions.directory .stored
      (ascii ['2', '\\', 'x', '0', '7']) = 1 ∧
    scanningWithoutBloom (dumpFile (readTable SmallTable.port true 2)) TwoVersions.directory .stored
      [50, 7] = 0 := by
  have hquote : ∀ f ∈ TwoVersions.store.files, ∀ e ∈ f.entries,
      quote ∉ e.userKey ∧ quote ∉ e.value := by
    decide +kernel
  have hscan := fun value => (scan_of_tables TwoVersions.writtenIn (by decide +kernel) true
    (by decide +kernel : ∀ f ∈ TwoVersions.store.files, f.entries.length ≤ 2) .stored value).2 hquote
  refine ⟨TwoVersions.writtenIn, (hscan _).trans ?_, (hscan _).trans ?_⟩
  · decide +kernel
  · decide +kernel

/-! ## Lookups at a sequence number (`LookupKey`, `SaveValue`) -/

/-- `LookupKey::internal_key`. -/
def lookupKey (userKey : Bytes) (sequence : UInt64) (h : sequence ≤ kMaxSequenceNumber) :
    ParsedInternalKey :=
  ⟨userKey, sequence, .value, h⟩

inductive SaverState
  | notFound
  | found (value : Bytes)
  | deleted
  | corrupt
deriving DecidableEq, Repr

def saveValue (userKey : Bytes) : Option (Bytes × Bytes) → SaverState
  | none => .notFound
  | some (ikey, v) =>
    match parseInternalKey ikey with
    | none => .corrupt
    | some parsedKey =>
      if bytewiseComparator.compare parsedKey.userKey userKey = .eq then
        match parsedKey.type with
        | .value => .found v
        | .deletion => .deleted
      else .notFound

/-- What an entry says about its key. -/
def Entry.state (e : Entry) : SaverState :=
  match e.key.type with
  | .value => .found e.value
  | .deletion => .deleted

theorem extractUserKey_append (key : ParsedInternalKey) :
    extractUserKey (appendInternalKey key) = key.userKey := by
  rw [extractUserKey, appendInternalKey, List.length_append, length_encodeFixed64,
    Nat.add_sub_cancel, List.take_left]

theorem extractNumber_append (key : ParsedInternalKey) :
    extractNumber (appendInternalKey key) = packSequenceAndType key.sequence key.type := by
  rw [extractNumber, appendInternalKey, List.length_append, length_encodeFixed64,
    Nat.add_sub_cancel, List.drop_left, decodeFixed64_encodeFixed64]

/-- The comparator on bytes is the comparison of the parsed keys. -/
theorem compareKeys_append (a b : ParsedInternalKey) :
    InternalKey.compareKeys bytewiseComparator (appendInternalKey a) (appendInternalKey b) =
      internalCompare a b := by
  rw [InternalKey.compareKeys, extractUserKey_append, extractUserKey_append, extractNumber_append,
    extractNumber_append, internalCompare]
  show (compare a.userKey b.userKey).then _ = _
  cases compare a.userKey b.userKey with
  | lt => rfl
  | eq => rfl
  | gt => rfl

theorem sorted_encoded {entries : List Entry} (h : InOrder entries) :
    Cursor.Sorted (internalKeyComparator bytewiseComparator).compare
      (entries.map Entry.encoded) := by
  refine List.pairwise_map.mpr (h.imp fun {a b} hab => ?_)
  show InternalKey.compareKeys bytewiseComparator (appendInternalKey a.key)
    (appendInternalKey b.key) = .lt
  rw [compareKeys_append]
  exact hab

/-- Of one sequence number, the type of a lookup is the highest. -/
theorem packSequenceAndType_lt_iff {a b : UInt64} (ha : a ≤ kMaxSequenceNumber)
    (hb : b ≤ kMaxSequenceNumber) (t : ValueType) :
    packSequenceAndType a .value < packSequenceAndType b t ↔ a < b := by
  have hpack {seq : UInt64} (h : seq ≤ kMaxSequenceNumber) (t : ValueType) :
      (packSequenceAndType seq t).toNat / 256 = seq.toNat ∧
        (packSequenceAndType seq t).toNat % 256 = t.code.toNat := by
    constructor
    · have hshift := congrArg UInt64.toNat (packSequenceAndType_shiftRight h t)
      rw [UInt64.toNat_shiftRight] at hshift
      rw [← hshift]
      exact (Nat.shiftRight_eq_div_pow _ 8).symm
    · have hbyte := congrArg UInt8.toNat (packSequenceAndType_toUInt8 seq t)
      rw [UInt64.toNat_toUInt8, UInt64.toNat_toUInt8] at hbyte
      cases t with
      | deletion => exact hbyte
      | value => exact hbyte
  obtain ⟨hadiv, hamod⟩ := hpack ha .value
  obtain ⟨hbdiv, hbmod⟩ := hpack hb t
  have htype : t.code.toNat ≤ 1 := by cases t <;> decide
  have hvalue : ValueType.value.code.toNat = 1 := rfl
  rw [UInt64.lt_iff_toNat_lt, UInt64.lt_iff_toNat_lt]
  omega

section Lookup
variable {userKey : Bytes} {sequence : UInt64} (hsequence : sequence ≤ kMaxSequenceNumber)

/-- Among the versions of a key, those that are newer than the lookup stand in front of it. -/
theorem internalCompare_lookupKey {e : Entry} (hkey : e.userKey = userKey) :
    internalCompare e.key (lookupKey userKey sequence hsequence) = .lt ↔
      sequence < e.key.sequence := by
  have hsame : compare e.key.userKey (lookupKey userKey sequence hsequence).userKey = .eq := by
    rw [show e.key.userKey = userKey from hkey]
    exact Std.compare_self
  rw [internalCompare, hsame]
  show compare (packSequenceAndType sequence .value)
    (packSequenceAndType e.key.sequence e.key.type) = .lt ↔ _
  rw [Std.compare_eq_lt]
  exact packSequenceAndType_lt_iff hsequence e.key.bounded e.key.type

/-- The versions that a lookup may see. -/
def Entry.visible (userKey : Bytes) (sequence : UInt64) (e : Entry) : Bool :=
  e.userKey = userKey ∧ e.key.sequence ≤ sequence

/-- An entry of the key that is not below the lookup is visible, and the other way round. -/
theorem visible_iff {e : Entry} (hkey : e.userKey = userKey) :
    e.visible userKey sequence = true ↔
      internalCompare e.key (lookupKey userKey sequence hsequence) ≠ .lt := by
  rw [Entry.visible, decide_eq_true_iff, Ne, internalCompare_lookupKey hsequence hkey,
    UInt64.not_lt]
  exact and_iff_right hkey

variable {entries : List Entry}

/-- The position that a lookup is searched at. -/
def lookupPosition (entries : List Entry) (key : ParsedInternalKey) : Nat :=
  Cursor.lowerBound (internalKeyComparator bytewiseComparator).compare (appendInternalKey key)
    (entries.map Entry.encoded)

/-- The first visible version stands where the lookup searches: a newer version of the key and
every smaller key is below the lookup. -/
theorem lookupPosition_of_find (horder : InOrder entries) {e : Entry}
    (hfind : entries.find? (Entry.visible userKey sequence) = some e) :
    entries[lookupPosition entries (lookupKey userKey sequence hsequence)]? = some e := by
  obtain ⟨hvisible, i, hi, rfl, hbefore⟩ := List.find?_eq_some_iff_getElem.mp hfind
  have hkey : entries[i].userKey = userKey := (of_decide_eq_true hvisible).1
  have hposition : lookupPosition entries (lookupKey userKey sequence hsequence) = i := by
    refine Cursor.lowerBound_eq (by rw [List.length_map]; exact hi.le) (fun j hj hji => ?_)
      fun h => ?_
    · rw [List.length_map] at hj
      rw [List.getElem_map]
      show InternalKey.compareKeys _ (appendInternalKey entries[j].key) _ = .lt
      rw [compareKeys_append]
      have hlt := List.pairwise_iff_getElem.mp horder j i hj hi hji
      by_cases hsame : entries[j].userKey = userKey
      · -- a version that is not visible is newer
        by_contra hnot
        have hhidden := hbefore j hji
        rw [(visible_iff hsequence hsame).mpr hnot] at hhidden
        cases hhidden
      · have hcompare : compare entries[j].key.userKey userKey = .lt := by
          rw [internalCompare, show entries[i].key.userKey = userKey from hkey] at hlt
          cases hc : compare entries[j].key.userKey userKey with
          | lt => rfl
          | eq => exact absurd (Std.LawfulEqCmp.compare_eq_iff_eq.mp hc) hsame
          | gt =>
            rw [hc] at hlt
            cases hlt
        rw [internalCompare, show (lookupKey userKey sequence hsequence).userKey = userKey from rfl,
          hcompare]
    · rw [List.getElem_map]
      show InternalKey.compareKeys _ (appendInternalKey entries[i].key) _ ≠ .lt
      rw [compareKeys_append]
      exact (visible_iff hsequence hkey).mp hvisible
  rw [hposition, List.getElem?_eq_getElem hi]

/-- Without a visible version the lookup ends at another key. -/
theorem userKey_ne_of_find_none (hfind : entries.find? (Entry.visible userKey sequence) = none)
    {e : Entry}
    (he : entries[lookupPosition entries (lookupKey userKey sequence hsequence)]? = some e) :
    e.userKey ≠ userKey := by
  intro hkey
  obtain ⟨hi, rfl⟩ := List.getElem?_eq_some_iff.mp he
  refine List.find?_eq_none.mp hfind _ (List.getElem_mem hi) ?_
  refine (visible_iff hsequence hkey).mpr ?_
  have hnot := Cursor.not_lt_of_lowerBound (i := lookupPosition entries
    (lookupKey userKey sequence hsequence)) rfl (by rw [List.length_map]; exact hi)
  rw [List.getElem_map] at hnot
  rw [← compareKeys_append]
  exact hnot

end Lookup

theorem saveValue_encoded {userKey : Bytes} {e : Entry} :
    saveValue userKey (some e.encoded) =
      if e.userKey = userKey then e.state else .notFound := by
  show (match parseInternalKey (appendInternalKey e.key) with | none => _ | some parsedKey => _) = _
  rw [parseInternalKey_appendInternalKey]
  dsimp only
  have hcompare : bytewiseComparator.compare e.key.userKey userKey = .eq ↔
      e.userKey = userKey := by
    show compare e.key.userKey userKey = .eq ↔ _
    exact Std.LawfulEqCmp.compare_eq_iff_eq
  by_cases hkey : e.userKey = userKey
  · rw [if_pos hkey, if_pos (hcompare.mpr hkey)]
    rfl
  · rw [if_neg hkey, if_neg (fun h => hkey (hcompare.mp h))]

/-- A lookup in the bytes of a table finds what the first visible version says, and nothing if
there is none. -/
theorem table_lookup {port : Port} {w : TableOptions} {file : RandomAccessFile}
    {entries : List Entry} {userPolicy : Option FilterPolicy}
    (hcomparator : w.comparator = internalKeyComparator bytewiseComparator)
    (hpolicy : w.filterPolicy = userPolicy.map internalFilterPolicy)
    (hwritten : WrittenAs port w file.contents (entries.map Entry.encoded))
    (horder : InOrder entries) (userKey : Bytes) {sequence : UInt64}
    (hsequence : sequence ≤ kMaxSequenceNumber) (verifyChecksums : Bool) :
    ∃ t, Table.openTable port w file file.contents.length = .ok t ∧
      (t.internalGet port verifyChecksums
        (appendInternalKey (lookupKey userKey sequence hsequence))).2 = none ∧
      saveValue userKey (t.internalGet port verifyChecksums
        (appendInternalKey (lookupKey userKey sequence hsequence))).1 =
          ((entries.find? (Entry.visible userKey sequence)).map Entry.state).getD .notFound := by
  obtain ⟨outcomes, hok, hcontents⟩ := hwritten.built
  obtain ⟨t, img, hopen, hoptions, hopened⟩ :=
    openTable_buildTable hwritten.interval hok hwritten.size w hcontents hwritten.length
  have hreader : t.options.comparator = w.comparator := by rw [hoptions]
  have hsorted : Cursor.Sorted w.comparator.compare (entries.map Entry.encoded) := by
    rw [hcomparator]
    exact sorted_encoded horder
  refine ⟨t, hopen, hopened.get_status hreader hsorted verifyChecksums _, ?_⟩
  generalize hkey : appendInternalKey (lookupKey userKey sequence hsequence) = k
  have hposition : (entries.map Entry.encoded)[Cursor.lowerBound w.comparator.compare k
      (entries.map Entry.encoded)]? =
      entries[lookupPosition entries (lookupKey userKey sequence hsequence)]?.map
        Entry.encoded := by
    rw [List.getElem?_map, lookupPosition, hkey, hcomparator]
  cases hfind : entries.find? (Entry.visible userKey sequence) with
  | some e =>
    have hvisible : e.visible userKey sequence = true := List.find?_some hfind
    have huser : e.userKey = userKey := (of_decide_eq_true hvisible).1
    rw [lookupPosition_of_find hsequence horder hfind] at hposition
    have hsame : extractUserKey e.encoded.1 = extractUserKey k := by
      rw [← hkey, extractUserKey_append]
      exact (extractUserKey_append e.key).trans huser
    have hget := hopened.get_complete hreader hsorted hcomparator (by rw [hoptions]) hpolicy
      verifyChecksums hposition hsame
    rw [hget, saveValue_encoded, if_pos huser]
    rfl
  | none =>
    cases hget : (t.internalGet port verifyChecksums k).1 with
    | none => rfl
    | some x =>
      have hx := hopened.get_sound hreader hsorted hget
      rw [hposition] at hx
      obtain ⟨e, he, rfl⟩ := Option.map_eq_some_iff.mp hx
      rw [saveValue_encoded, if_neg (userKey_ne_of_find_none hsequence hfind he)]
      rfl

/-- At the sequence number 2 the older version is found. -/
theorem table_lookup_twoVersions :
    InOrder TwoVersions.entries ∧
    ∃ t, Table.openTable SmallTable.port SmallTable.options ⟨[], TwoVersions.contents, true⟩
        TwoVersions.contents.length = .ok t ∧
      (t.internalGet SmallTable.port true
        (appendInternalKey (lookupKey [98] 2 (by decide)))).2 = none ∧
      saveValue [98] (t.internalGet SmallTable.port true
        (appendInternalKey (lookupKey [98] 2 (by decide)))).1 = .found [49] := by
  have horder : InOrder TwoVersions.entries := by
    unfold InOrder
    decide +kernel
  have hpolicy : SmallTable.options.filterPolicy =
      (some (bloomFilterPolicy (.new 10))).map internalFilterPolicy := rfl
  have hwritten : WrittenAs SmallTable.port SmallTable.options
    (RandomAccessFile.mk [] TwoVersions.contents true).contents
    (TwoVersions.entries.map Entry.encoded) := TwoVersions.writtenAs
  exact ⟨horder, table_lookup rfl hpolicy hwritten horder [98] (by decide) true⟩

end BloomHierarchy
