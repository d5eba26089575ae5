import BloomHierarchy.Dump

/-!
# Which lines become which records

`DumpTable` prints four kinds of lines: for a value, for a deletion, for a key that
does not parse, and for an error of the iterator. `Append` makes a record of each of
them, by the positions of the quotes alone.

Results:
1. `append_by_quotes`: the starts of all calls of `substr` lie inside the line, and
   the record in terms of the first four quotes.
2. `dumpSSTable_live_iff`: the records are those of the value entries exactly if the
   table has no other entry and its iterator ends without an error.
-/

namespace BloomHierarchy

open StdString

/-! ## Positions -/

/-- The starts of the five calls of `substr` in `append`, in their order. -/
def substrStarts (line : Bytes) : List UInt64 :=
  let keyFirstPos := findFirstOf line quote + 1
  let keyLastPos := findFirstOf (line.drop keyFirstPos.toNat) quote - 1 + keyFirstPos
  let valFirstPos := findFirstOf (line.drop (keyLastPos + 2).toNat) quote + 1 + keyLastPos + 2
  [keyFirstPos, keyFirstPos, keyLastPos + 2, valFirstPos, valFirstPos]

/-- A failed search moves the start by `npos + 1 = 0`, so no start leaves the line. -/
theorem substrStarts_le {line : Bytes} (hlen : line.length < 2 ^ 63) :
    ∀ start ∈ substrStarts line, start.toNat ≤ line.length := by
  obtain ⟨hkey, hmiddle, hval⟩ := substr_positions hlen
  obtain ⟨hkeyLe, hkeyRest⟩ := substr_eq_some hlen hkey
  obtain ⟨hmiddleLe, hmiddleRest⟩ := substr_eq_some hlen hmiddle
  obtain ⟨hvalLe, _⟩ := substr_eq_some hlen hval
  intro start hstart
  simp only [substrStarts, ← hkeyRest, ← hmiddleRest, List.mem_cons, List.not_mem_nil,
    or_false] at hstart
  rcases hstart with rfl | rfl | rfl | rfl | rfl
  · exact hkeyLe
  · exact hkeyLe
  · exact hmiddleLe
  · exact hvalLe
  · exact hvalLe

/-! ## The record of a line -/

section Record
variable {line start key middle val rest : Bytes}

theorem recordOf_no_quote (h : quote ∉ line) : recordOf line = ⟨line, line⟩ := by
  simp only [recordOf, after_of_not_mem h, upTo_of_not_mem h]

theorem recordOf_one_quote (hstart : quote ∉ start) (hrest : quote ∉ rest) :
    recordOf (start ++ quote :: rest) = ⟨rest, rest⟩ := by
  simp only [recordOf, after_append hstart, after_of_not_mem hrest, upTo_of_not_mem hrest]

theorem recordOf_two_quotes (hstart : quote ∉ start) (hkey : quote ∉ key) (hrest : quote ∉ rest) :
    recordOf (start ++ quote :: (key ++ quote :: rest)) = ⟨key, rest⟩ := by
  simp only [recordOf, after_append hstart, upTo_append hkey, after_append hkey,
    after_of_not_mem hrest, upTo_of_not_mem hrest]

theorem recordOf_three_quotes (hstart : quote ∉ start) (hkey : quote ∉ key)
    (hmiddle : quote ∉ middle) :
    recordOf (start ++ quote :: (key ++ quote :: (middle ++ quote :: rest))) =
      ⟨key, upTo quote rest⟩ := by
  simp only [recordOf, after_append hstart, upTo_append hkey, after_append hkey,
    after_append hmiddle]

end Record

/-- `append` never throws and never drops a line: every start lies inside the line,
one record is pushed, and the first four quotes decide which. -/
theorem append_by_quotes (buffer : DBDumpFileBuffer) {line : Bytes}
    (hlen : line.length < 2 ^ 63) :
    (∀ start ∈ substrStarts line, start.toNat ≤ line.length) ∧
    ∃ record, buffer.append line = some ⟨buffer.fileRecords ++ [record]⟩ ∧
      (quote ∉ line → record = ⟨line, line⟩) ∧
      (∀ start rest, quote ∉ start → quote ∉ rest →
        line = start ++ quote :: rest → record = ⟨rest, rest⟩) ∧
      (∀ start key rest, quote ∉ start → quote ∉ key → quote ∉ rest →
        line = start ++ quote :: (key ++ quote :: rest) → record = ⟨key, rest⟩) ∧
      (∀ start key middle rest, quote ∉ start → quote ∉ key → quote ∉ middle → quote ∉ rest →
        line = start ++ quote :: (key ++ quote :: (middle ++ quote :: rest)) →
        record = ⟨key, rest⟩) ∧
      (∀ start key middle val rest, quote ∉ start → quote ∉ key → quote ∉ middle → quote ∉ val →
        line = start ++ quote :: (key ++ quote :: (middle ++ quote :: (val ++ quote :: rest))) →
        record = ⟨key, val⟩) := by
  refine ⟨substrStarts_le hlen, recordOf line, append_eq buffer hlen, recordOf_no_quote,
    ?_, ?_, ?_, ?_⟩
  · rintro start rest hstart hrest rfl
    exact recordOf_one_quote hstart hrest
  · rintro start key rest hstart hkey hrest rfl
    exact recordOf_two_quotes hstart hkey hrest
  · rintro start key middle rest hstart hkey hmiddle hrest rfl
    rw [recordOf_three_quotes hstart hkey hmiddle, upTo_of_not_mem hrest]
  · rintro start key middle val rest hstart hkey hmiddle hval rfl
    rw [recordOf_three_quotes hstart hkey hmiddle, upTo_append hval]

/-- A line that begins and ends with a quote. -/
theorem append_by_quotes_ends :
    [quote, 0x61, quote].length < 2 ^ 63 ∧
    (∀ start ∈ substrStarts [quote, 0x61, quote],
      start.toNat ≤ [quote, 0x61, quote].length) ∧
    ∃ record, DBDumpFileBuffer.append {} [quote, 0x61, quote] = some ⟨[] ++ [record]⟩ ∧
      (quote ∉ [quote, 0x61, quote] → record = ⟨[quote, 0x61, quote], [quote, 0x61, quote]⟩) ∧
      (∀ start rest, quote ∉ start → quote ∉ rest →
        [quote, 0x61, quote] = start ++ quote :: rest → record = ⟨rest, rest⟩) ∧
      (∀ start key rest, quote ∉ start → quote ∉ key → quote ∉ rest →
        [quote, 0x61, quote] = start ++ quote :: (key ++ quote :: rest) →
        record = ⟨key, rest⟩) ∧
      (∀ start key middle rest, quote ∉ start → quote ∉ key → quote ∉ middle → quote ∉ rest →
        [quote, 0x61, quote] = start ++ quote :: (key ++ quote :: (middle ++ quote :: rest)) →
        record = ⟨key, rest⟩) ∧
      (∀ start key middle val rest, quote ∉ start → quote ∉ key → quote ∉ middle → quote ∉ val →
        [quote, 0x61, quote] =
          start ++ quote :: (key ++ quote :: (middle ++ quote :: (val ++ quote :: rest))) →
        record = ⟨key, val⟩) :=
  ⟨by decide, append_by_quotes {} (by decide)⟩

/-! ## The records of a table -/

/-- The record of an entry that is a value. -/
def liveRecord? (e : Bytes × Bytes) : Option DBRecord :=
  match parseInternalKey e.1 with
  | some ⟨userKey, _, .value, _⟩ => some ⟨userKey, e.2⟩
  | some ⟨_, _, .deletion, _⟩ => none
  | none => none

/-- The key that is printed for an entry: the user key, or the whole internal key if
it does not parse. -/
def printedKey (internalKey : Bytes) : Bytes :=
  match parseInternalKey internalKey with
  | some key => key.userKey
  | none => internalKey

/-- An entry with a plain key and a plain value. -/
def PlainEntry (e : Bytes × Bytes) : Prop :=
  Plain (printedKey e.1) ∧ Plain e.2

instance (e : Bytes × Bytes) : Decidable (PlainEntry e) :=
  inferInstanceAs (Decidable (Plain (printedKey e.1) ∧ Plain e.2))

/-- The line depends on the parsed key alone. -/
theorem dumpLine_of_parse {internalKey : Bytes} {key : ParsedInternalKey}
    (h : parseInternalKey internalKey = some key) (value : Bytes) :
    dumpLine internalKey value = dumpLine (appendInternalKey key) value := by
  rw [dumpLine, h, dumpLine, parseInternalKey_appendInternalKey]

/-- The entry is a value. -/
def IsValue (e : Bytes × Bytes) : Prop :=
  ∃ key, parseInternalKey e.1 = some key ∧ key.type = .value

theorem isSome_liveRecord? {e : Bytes × Bytes} : (liveRecord? e).isSome = true ↔ IsValue e := by
  unfold liveRecord? IsValue
  split
  · next hparse => exact iff_of_true rfl ⟨_, hparse, rfl⟩
  · next hparse =>
    refine iff_of_false Bool.false_ne_true ?_
    rintro ⟨key, hkey, htype⟩
    rw [hparse] at hkey
    cases hkey
    cases htype
  · next hparse =>
    refine iff_of_false Bool.false_ne_true ?_
    rintro ⟨key, hkey, _⟩
    rw [hparse] at hkey
    cases hkey

/-- A value entry becomes its own record. -/
theorem recordOf_of_isValue {e : Bytes × Bytes} (hplain : PlainEntry e) (h : IsValue e) :
    liveRecord? e = some (recordOf (dumpLine e.1 e.2)) := by
  obtain ⟨hkey, hvalue⟩ := hplain
  obtain ⟨⟨userKey, sequence, type, bounded⟩, hparse, rfl⟩ := h
  rw [printedKey, hparse] at hkey
  obtain ⟨hkq, hke⟩ := plain_iff.mp hkey
  obtain ⟨hvq, hve⟩ := plain_iff.mp hvalue
  rw [liveRecord?, hparse, dumpLine_of_parse hparse, recordOf_dumpLine hkq hvq, hke, hve]

theorem length_dumpTable (iter : TableIterator) :
    (dumpTable iter).length = iter.entries.length + iter.status.toList.length := by
  rw [dumpTable, List.length_append, List.length_map]
  cases iter.status <;> rfl

/-- The records of a table are those of its value entries, in order, exactly if all
entries are values and the iterator ends without an error: every other line becomes
a record as well. -/
theorem dumpSSTable_live_iff {iter : TableIterator}
    (hlen : ∀ line ∈ dumpTable iter, line.length < 2 ^ 63)
    (hplain : ∀ e ∈ iter.entries, PlainEntry e) :
    dumpSSTable (some iter) = some (iter.entries.filterMap liveRecord?) ↔
      (∀ e ∈ iter.entries, IsValue e) ∧ iter.status = none := by
  rw [dumpSSTable_eq hlen, Option.some_inj]
  constructor
  · intro h
    -- there are as many records as lines, and at most as many live ones as entries
    have hlengths := congrArg List.length h
    have hle := List.length_filterMap_le liveRecord? iter.entries
    rw [List.length_map, length_dumpTable] at hlengths
    have hall : (iter.entries.filterMap liveRecord?).length = iter.entries.length := by omega
    have hnil : iter.status.toList.length = 0 := by omega
    refine ⟨fun e he => ?_, ?_⟩
    · exact isSome_liveRecord?.mp (List.filterMap_length_eq_length.mp hall e he)
    · rwa [List.length_eq_zero_iff, Option.toList_eq_nil_iff] at hnil
  · rintro ⟨hlive, hstatus⟩
    have hrecords : ∀ e ∈ iter.entries, liveRecord? e = some (recordOf (dumpLine e.1 e.2)) :=
      fun e he => recordOf_of_isValue (hplain e he) (hlive e he)
    rw [List.filterMap_eq_map_iff_forall_eq_some.mpr hrecords, dumpTable, hstatus, List.append_nil,
      List.map_map]
    rfl

/-- A table with a value, a deletion and a key that is too short, whose iterator then
stops at a block that it cannot read. -/
def mixedTable : TableIterator where
  entries :=
    [(appendInternalKey ⟨ascii ['a'], 11, .value, by decide⟩, ascii ['x']),
      (appendInternalKey ⟨ascii ['b'], 12, .deletion, by decide⟩, []),
      (ascii ['c'], ascii ['x'])]
  status := some (ascii ['C', 'o', 'r', 'r', 'u', 'p', 't', 'i', 'o', 'n', ':', ' ', 't', 'r', 'u',
    'n', 'c', 'a', 't', 'e', 'd', ' ', 'b', 'l', 'o', 'c', 'k', ' ', 'r', 'e', 'a', 'd'])

theorem dumpSSTable_live_iff_mixed :
    (∀ line ∈ dumpTable mixedTable, line.length < 2 ^ 63) ∧
    (∀ e ∈ mixedTable.entries, PlainEntry e) ∧
    (dumpSSTable (some mixedTable) = some (mixedTable.entries.filterMap liveRecord?) ↔
      (∀ e ∈ mixedTable.entries, IsValue e) ∧ mixedTable.status = none) := by
  have hlen : ∀ line ∈ dumpTable mixedTable, line.length < 2 ^ 63 := by decide +kernel
  have hplain : ∀ e ∈ mixedTable.entries, PlainEntry e := by decide +kernel
  exact ⟨hlen, hplain, dumpSSTable_live_iff hlen hplain⟩

/-- The deletion, the short key and the message of the iterator become records, and
the record of the short key even counts as a match for the value `x`. -/
theorem dumpSSTable_phantom_records :
    (∀ e ∈ mixedTable.entries, PlainEntry e) ∧
    mixedTable.entries.filterMap liveRecord? = [⟨ascii ['a'], ascii ['x']⟩] ∧
    dumpSSTable (some mixedTable) =
      some [⟨ascii ['a'], ascii ['x']⟩, ⟨ascii ['b'], []⟩, ⟨ascii ['c'], ascii ['x']⟩,
        ⟨(dumpTable mixedTable).getLastD [], (dumpTable mixedTable).getLastD []⟩] := by
  decide +kernel

end BloomHierarchy
