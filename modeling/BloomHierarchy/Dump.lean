import BloomHierarchy.Basic
import BloomHierarchy.Lib.StdString

/-!
# Dumping a table and reading the dump back

`DumpTable` prints one line of text for each entry of a table, and
`DBDumpFileBuffer::Append` cuts a key and a value out of each line by the
positions of its quotes.

Results:
1. `parseInternalKey_appendInternalKey`: an internal key is read back as it
   was written.
2. `append_eq`: `append` never throws; it pushes the record that lies between
   the first two and the next two quotes, whatever the line.
3. `append_dumpLine`: what becomes of an entry that is printed and read back.
-/

namespace BloomHierarchy

open StdString

/-! ## Internal keys (`dbformat`, `coding`) -/

inductive ValueType
  | deletion
  | value
deriving DecidableEq, Repr

/-- The number of the type in the file format. -/
def ValueType.code : ValueType → UInt64
  | .deletion => 0
  | .value => 1

def kMaxSequenceNumber : UInt64 :=
  ((1 : UInt64) <<< 56) - 1

/-- A parsed key. `PackSequenceAndType` asserts the bound. -/
structure ParsedInternalKey where
  userKey : Bytes
  sequence : UInt64
  type : ValueType
  bounded : sequence ≤ kMaxSequenceNumber
deriving DecidableEq

def encodeFixed64 (value : UInt64) : Bytes :=
  [value.toUInt8, (value >>> 8).toUInt8, (value >>> 16).toUInt8, (value >>> 24).toUInt8,
    (value >>> 32).toUInt8, (value >>> 40).toUInt8, (value >>> 48).toUInt8,
    (value >>> 56).toUInt8]

def decodeFixed64 : Bytes → UInt64
  | [b0, b1, b2, b3, b4, b5, b6, b7] =>
    b0.toUInt64 ||| (b1.toUInt64 <<< 8) ||| (b2.toUInt64 <<< 16) ||| (b3.toUInt64 <<< 24) |||
      (b4.toUInt64 <<< 32) ||| (b5.toUInt64 <<< 40) ||| (b6.toUInt64 <<< 48) |||
      (b7.toUInt64 <<< 56)
  | _ => 0

def packSequenceAndType (seq : UInt64) (t : ValueType) : UInt64 :=
  (seq <<< 8) ||| t.code

def appendInternalKey (key : ParsedInternalKey) : Bytes :=
  key.userKey ++ encodeFixed64 (packSequenceAndType key.sequence key.type)

theorem shiftRight_le_max (num : UInt64) : num >>> 8 ≤ kMaxSequenceNumber := by
  have hnum := num.toNat_lt
  rw [UInt64.le_iff_toNat_le, UInt64.toNat_shiftRight]
  change num.toNat >>> 8 ≤ 2 ^ 56 - 1
  rw [Nat.shiftRight_eq_div_pow]
  omega

/-- `none` is the answer `false`. -/
def parseInternalKey (internalKey : Bytes) : Option ParsedInternalKey :=
  let n := internalKey.length
  if n < 8 then none
  else
    let num := decodeFixed64 (internalKey.drop (n - 8))
    let userKey := internalKey.take (n - 8)
    if num.toUInt8 = 0 then some ⟨userKey, num >>> 8, .deletion, shiftRight_le_max num⟩
    else if num.toUInt8 = 1 then some ⟨userKey, num >>> 8, .value, shiftRight_le_max num⟩
    else none

theorem decodeFixed64_encodeFixed64 (value : UInt64) :
    decodeFixed64 (encodeFixed64 value) = value := by
  apply UInt64.toBitVec_inj.mp
  apply BitVec.eq_of_getLsbD_eq
  intro i hi
  -- bit i comes from byte i / 8 alone
  simp only [decodeFixed64, encodeFixed64, UInt64.toBitVec_or, UInt64.toBitVec_shiftLeft,
    UInt64.toBitVec_shiftRight, UInt8.toBitVec_toUInt64, UInt64.toBitVec_toUInt8,
    UInt64.toBitVec_ofNat, BitVec.getLsbD_or, BitVec.getLsbD_setWidth]
  grind

theorem packSequenceAndType_toUInt8 (seq : UInt64) (t : ValueType) :
    (packSequenceAndType seq t).toUInt8 = t.code.toUInt8 := by
  apply UInt8.toBitVec_inj.mp
  apply BitVec.eq_of_getLsbD_eq
  intro i hi
  simp only [packSequenceAndType, UInt64.toBitVec_or, UInt64.toBitVec_shiftLeft,
    UInt64.toBitVec_toUInt8, UInt64.toBitVec_ofNat, BitVec.getLsbD_or, BitVec.getLsbD_setWidth]
  grind

theorem packSequenceAndType_shiftRight {seq : UInt64} (h : seq ≤ kMaxSequenceNumber)
    (t : ValueType) : packSequenceAndType seq t >>> 8 = seq := by
  have hseq : seq.toNat ≤ 2 ^ 56 - 1 := UInt64.le_iff_toNat_le.mp h
  have hcode : t.code.toNat >>> 8 = 0 := by cases t <;> rfl
  have hshift : (seq.toNat <<< 8) % 2 ^ 64 = seq.toNat <<< 8 := by
    rw [Nat.shiftLeft_eq]
    omega
  apply UInt64.toNat_inj.mp
  rw [packSequenceAndType, UInt64.toNat_shiftRight, UInt64.toNat_or, UInt64.toNat_shiftLeft]
  change ((seq.toNat <<< 8) % 2 ^ 64 ||| t.code.toNat) >>> 8 = seq.toNat
  rw [hshift, Nat.shiftRight_or_distrib, hcode, Nat.or_zero, Nat.shiftLeft_shiftRight]

theorem length_encodeFixed64 (value : UInt64) : (encodeFixed64 value).length = 8 := rfl

/-- An internal key is read back as it was written. -/
theorem parseInternalKey_appendInternalKey (key : ParsedInternalKey) :
    parseInternalKey (appendInternalKey key) = some key := by
  obtain ⟨userKey, sequence, type, bounded⟩ := key
  have hlen := length_encodeFixed64 (packSequenceAndType sequence type)
  have hcut : (userKey ++ encodeFixed64 (packSequenceAndType sequence type)).length - 8 =
      userKey.length := by
    rw [List.length_append, hlen]
    omega
  have hlong : ¬ (userKey ++ encodeFixed64 (packSequenceAndType sequence type)).length < 8 := by
    rw [List.length_append, hlen]
    omega
  simp only [parseInternalKey, appendInternalKey, if_neg hlong, hcut, List.drop_left,
    List.take_left, decodeFixed64_encodeFixed64, packSequenceAndType_toUInt8,
    packSequenceAndType_shiftRight bounded]
  cases type <;> rfl

/-! ## Printing (`logging`, `dumpfile`) -/

def appendNumberTo (str : Bytes) (num : UInt64) : Bytes :=
  str ++ toDecimal num.toNat

/-- `snprintf` with the format `\x%02x`. -/
def hexEscape (c : UInt8) : Bytes :=
  ascii ['\\', 'x', Nat.digitChar (c.toNat / 16), Nat.digitChar (c.toNat % 16)]

/-- `c >= ' ' && c <= '~'` on a signed `char`. -/
def isPrintable (c : UInt8) : Bool :=
  ' '.toNat ≤ c.toInt8.toInt && c.toInt8.toInt ≤ '~'.toNat

def appendEscapedStringTo (str value : Bytes) : Bytes :=
  value.foldl (fun str c => if isPrintable c then str ++ [c] else str ++ hexEscape c) str

def escapeString (value : Bytes) : Bytes :=
  appendEscapedStringTo [] value

def quote : UInt8 := 0x27

/-- The line `DumpTable` appends for one entry of the table. -/
def dumpLine (internalKey value : Bytes) : Bytes :=
  match parseInternalKey internalKey with
  | none =>
    let r := ascii ['b', 'a', 'd', 'k', 'e', 'y', ' '] ++ [quote]
    let r := appendEscapedStringTo r internalKey
    let r := r ++ quote :: ascii [' ', '=', '>', ' '] ++ [quote]
    let r := appendEscapedStringTo r value
    r ++ [quote] ++ ascii ['\n']
  | some key =>
    let r := [quote]
    let r := appendEscapedStringTo r key.userKey
    let r := r ++ quote :: ascii [' ', '@', ' ']
    let r := appendNumberTo r key.sequence
    let r := r ++ ascii [' ', ':', ' ']
    let r := match key.type with
      | .deletion => r ++ ascii ['d', 'e', 'l']
      | .value => r ++ ascii ['v', 'a', 'l']
    let r := r ++ ascii [' ', '=', '>', ' '] ++ [quote]
    let r := appendEscapedStringTo r value
    r ++ [quote] ++ ascii ['\n']

/-- A pass of the table's iterator: the entries until it stops, and the text of
its status if that is an error. -/
structure TableIterator where
  entries : List (Bytes × Bytes)
  status : Option Bytes := none

/-- What `DumpTable` appends to its destination, in order. -/
def dumpTable (iter : TableIterator) : List Bytes :=
  iter.entries.map (fun e => dumpLine e.1 e.2) ++
    match iter.status with
    | none => []
    | some s =>
      [ascii ['i', 't', 'e', 'r', 'a', 't', 'o', 'r', ' ', 'e', 'r', 'r', 'o', 'r', ':', ' '] ++
        s ++ ascii ['\n']]

/-! ## Reading (`dbDumper`) -/

/-- The destination of a dump. -/
structure DBDumpFileBuffer where
  fileRecords : List DBRecord := []

/-- `none` is an exception of `substr`, which ends the program because
`dumpSSTable` is `noexcept`. -/
def DBDumpFileBuffer.append (buffer : DBDumpFileBuffer) (line : Bytes) :
    Option DBDumpFileBuffer := do
  let keyFirstPos := findFirstOf line quote + 1
  let keyLastPos := findFirstOf (← substr line keyFirstPos) quote - 1 + keyFirstPos
  let key ← substr line keyFirstPos (keyLastPos - keyFirstPos + 1)
  let valFirstPos := findFirstOf (← substr line (keyLastPos + 2)) quote + 1 + keyLastPos + 2
  let valLastPos := findFirstOf (← substr line valFirstPos) quote - 1 + valFirstPos
  let val ← substr line valFirstPos (valLastPos - valFirstPos + 1)
  return { buffer with fileRecords := buffer.fileRecords ++ [⟨key, val⟩] }

/-- The records of a table, or none of them if `DumpFile` reports an error. -/
def dumpSSTable (table : Option TableIterator) : Option (List DBRecord) :=
  match table with
  | none => some []
  | some iter => do
    let buffer ← (dumpTable iter).foldlM DBDumpFileBuffer.append {}
    return buffer.fileRecords

/-! ## What `append` returns -/

/-- The record that lies between the first two and the next two quotes. -/
def recordOf (line : Bytes) : DBRecord :=
  ⟨upTo quote (after quote line), upTo quote (after quote (after quote (after quote line)))⟩

/-- The three parts of a line that `append` searches for quotes. Each starts one past
a quote, or where the part before it starts if there is none. -/
theorem substr_positions {line : Bytes} (hlen : line.length < 2 ^ 63) :
    substr line (findFirstOf line quote + 1) = some (after quote line) ∧
    substr line (findFirstOf (after quote line) quote - 1 + (findFirstOf line quote + 1) + 2) =
      some (after quote (after quote line)) ∧
    substr line (findFirstOf (after quote (after quote line)) quote + 1 +
        (findFirstOf (after quote line) quote - 1 + (findFirstOf line quote + 1)) + 2) =
      some (after quote (after quote (after quote line))) := by
  have hline : substr line 0 = some line := substr_npos hlen (Nat.zero_le _)
  have hkey := substr_after hlen hline quote
  have hmiddle := substr_after hlen hkey quote
  have hval := substr_after hlen hmiddle quote
  rw [UInt64.add_zero] at hkey hmiddle hval
  have hnext : ∀ f p : UInt64, f - 1 + p + 2 = f + 1 + p := by grind
  have hsum : ∀ g f p : UInt64, g + 1 + (f - 1 + p) + 2 = g + 1 + (f + 1 + p) := by grind
  rw [hnext, hsum]
  exact ⟨hkey, hmiddle, hval⟩

/-- `append` never throws and pushes one record. -/
theorem append_eq (buffer : DBDumpFileBuffer) {line : Bytes} (hlen : line.length < 2 ^ 63) :
    buffer.append line = some ⟨buffer.fileRecords ++ [recordOf line]⟩ := by
  obtain ⟨hkey, hmiddle, hval⟩ := substr_positions hlen
  have hcut : ∀ f p : UInt64, f - 1 + p - p + 1 = f := by grind
  simp only [DBDumpFileBuffer.append, hkey, hcut, substr_upTo hlen hkey, hmiddle, hval,
    substr_upTo hlen hval, Option.bind_eq_bind, Option.bind_some, Option.pure_def, recordOf]

/-- The records of a table are those of its lines, in order. -/
theorem dumpSSTable_eq {iter : TableIterator}
    (hlen : ∀ line ∈ dumpTable iter, line.length < 2 ^ 63) :
    dumpSSTable (some iter) = some ((dumpTable iter).map recordOf) := by
  have hloop : ∀ (lines : List Bytes) (buffer : DBDumpFileBuffer),
      (∀ line ∈ lines, line.length < 2 ^ 63) →
      lines.foldlM DBDumpFileBuffer.append buffer =
        some ⟨buffer.fileRecords ++ lines.map recordOf⟩ := by
    intro lines
    induction lines with
    | nil =>
      intro buffer _
      rw [List.map_nil, List.append_nil]
      rfl
    | cons line lines ih =>
      intro buffer hlines
      obtain ⟨hline, hrest⟩ := List.forall_mem_cons.mp hlines
      rw [List.foldlM_cons, append_eq buffer hline]
      show lines.foldlM DBDumpFileBuffer.append _ = _
      rw [ih _ hrest, List.append_assoc]
      rfl
  rw [dumpSSTable, hloop _ _ hlen]
  rfl

/-! ## Escaping -/

/-- What the escaping adds for one byte. -/
def escapeByte (c : UInt8) : Bytes :=
  if isPrintable c then [c] else hexEscape c

theorem appendEscapedStringTo_eq_flatMap (str value : Bytes) :
    appendEscapedStringTo str value = str ++ value.flatMap escapeByte := by
  rw [appendEscapedStringTo]
  induction value generalizing str with
  | nil => simp
  | cons c value ih =>
    rw [List.foldl_cons, ih, List.flatMap_cons, ← List.append_assoc, escapeByte]
    split <;> rfl

theorem escapeString_eq_flatMap (value : Bytes) : escapeString value = value.flatMap escapeByte :=
  appendEscapedStringTo_eq_flatMap [] value

theorem appendEscapedStringTo_eq (str value : Bytes) :
    appendEscapedStringTo str value = str ++ escapeString value := by
  rw [appendEscapedStringTo_eq_flatMap, escapeString_eq_flatMap]

/-- The bytes that are printed as they are. -/
theorem isPrintable_iff (c : UInt8) : isPrintable c = true ↔ 0x20 ≤ c ∧ c ≤ 0x7e := by
  have hsigned : c.toInt8.toInt = c.toBitVec.toInt := rfl
  have hbound := c.toNat_lt
  rw [isPrintable, hsigned, BitVec.toInt_eq_toNat_cond, UInt8.le_iff_toNat_le,
    UInt8.le_iff_toNat_le]
  change (decide ((32 : Int) ≤ if 2 * c.toNat < 2 ^ 8 then (c.toNat : Int) else c.toNat - 2 ^ 8) &&
    decide ((if 2 * c.toNat < 2 ^ 8 then (c.toNat : Int) else c.toNat - 2 ^ 8) ≤ 126)) = true ↔
    32 ≤ c.toNat ∧ c.toNat ≤ 126
  rw [Bool.and_eq_true, decide_eq_true_eq, decide_eq_true_eq]
  split <;> omega

theorem quote_not_mem_hexEscape (c : UInt8) : quote ∉ hexEscape c := by
  have hdigit : ∀ n < 16, quote ∉ ascii ['\\', 'x', Nat.digitChar n] := by decide
  have hbound := c.toNat_lt
  have hhigh := hdigit (c.toNat / 16) (by omega)
  have hlow := hdigit (c.toNat % 16) (by omega)
  simp only [ascii, List.map_cons, List.map_nil, List.mem_cons, not_or] at hhigh hlow
  simp only [hexEscape, ascii, List.map_cons, List.map_nil, List.mem_cons, not_or]
  exact ⟨hhigh.1, hhigh.2.1, hhigh.2.2.1, hlow.2.2⟩

theorem quote_mem_escapeString {value : Bytes} :
    quote ∈ escapeString value ↔ quote ∈ value := by
  rw [escapeString_eq_flatMap, List.mem_flatMap]
  constructor
  · rintro ⟨c, hc, hq⟩
    unfold escapeByte at hq
    split at hq
    · rwa [List.mem_singleton.mp hq]
    · exact absurd hq (quote_not_mem_hexEscape c)
  · intro h
    exact ⟨quote, h, by decide⟩

theorem length_le_escapeString (value : Bytes) : value.length ≤ (escapeString value).length := by
  rw [escapeString_eq_flatMap]
  induction value with
  | nil => exact Nat.le_refl _
  | cons c value ih =>
    have hpos : 1 ≤ (escapeByte c).length := by
      unfold escapeByte
      split
      · exact Nat.le_refl _
      · show 1 ≤ 4
        omega
    rw [List.flatMap_cons, List.length_append, List.length_cons]
    omega

/-- Escaping keeps exactly the strings of printable bytes. -/
theorem escapeString_eq_self_iff {value : Bytes} :
    escapeString value = value ↔ ∀ c ∈ value, 0x20 ≤ c ∧ c ≤ 0x7e := by
  rw [escapeString_eq_flatMap]
  induction value with
  | nil => simp
  | cons c value ih =>
    rw [List.flatMap_cons, List.forall_mem_cons, ← isPrintable_iff]
    cases hc : isPrintable c with
    | true =>
      rw [escapeByte, if_pos hc, List.singleton_append, List.cons_inj_right, ih]
      simp
    | false =>
      -- the escape is longer than the byte, and nothing after it can be shorter
      have hlen := length_le_escapeString value
      rw [escapeString_eq_flatMap] at hlen
      refine iff_of_false (fun h => ?_) (by simp)
      have hlengths := congrArg List.length h
      rw [escapeByte, if_neg (by simp [hc]), List.length_append, List.length_cons] at hlengths
      have hfour : (hexEscape c).length = 4 := rfl
      omega

/-- Strings of bytes from `0x20` to `0x7e` other than the quote. -/
def Plain (s : Bytes) : Prop :=
  ∀ c ∈ s, 0x20 ≤ c ∧ c ≤ 0x7e ∧ c ≠ 0x27

instance (s : Bytes) : Decidable (Plain s) :=
  inferInstanceAs (Decidable (∀ c ∈ s, 0x20 ≤ c ∧ c ≤ 0x7e ∧ c ≠ 0x27))

theorem plain_iff {s : Bytes} : Plain s ↔ quote ∉ s ∧ escapeString s = s := by
  rw [escapeString_eq_self_iff]
  constructor
  · intro h
    exact ⟨fun hq => (h quote hq).2.2 rfl, fun c hc => ⟨(h c hc).1, (h c hc).2.1⟩⟩
  · rintro ⟨hq, h⟩ c hc
    refine ⟨(h c hc).1, (h c hc).2, ?_⟩
    rintro rfl
    exact hq hc

/-! ## What becomes of an entry -/

/-- What stands between the quotes of the key and those of the value. -/
def dumpMiddle (key : ParsedInternalKey) : Bytes :=
  ascii [' ', '@', ' '] ++ toDecimal key.sequence.toNat ++ ascii [' ', ':', ' '] ++
    (match key.type with
      | .deletion => ascii ['d', 'e', 'l']
      | .value => ascii ['v', 'a', 'l']) ++ ascii [' ', '=', '>', ' ']

theorem quote_not_mem_dumpMiddle (key : ParsedInternalKey) : quote ∉ dumpMiddle key := by
  have hnum : quote ∉ toDecimal key.sequence.toNat := fun h =>
    absurd (mem_toDecimal h).1 (by decide)
  unfold dumpMiddle
  simp only [List.mem_append, not_or]
  refine ⟨⟨⟨⟨by decide, hnum⟩, by decide⟩, ?_⟩, by decide⟩
  cases key.type <;> decide

theorem dumpLine_appendInternalKey (key : ParsedInternalKey) (value : Bytes) :
    dumpLine (appendInternalKey key) value =
      quote :: (escapeString key.userKey ++ quote :: (dumpMiddle key ++
        quote :: (escapeString value ++ quote :: ascii ['\n']))) := by
  rw [dumpLine, parseInternalKey_appendInternalKey]
  cases htype : key.type <;>
    simp [appendEscapedStringTo_eq, appendNumberTo, dumpMiddle, htype]

/-- The record of an entry whose key and value hold no quote. -/
theorem recordOf_dumpLine {key : ParsedInternalKey} {value : Bytes} (hkey : quote ∉ key.userKey)
    (hvalue : quote ∉ value) :
    recordOf (dumpLine (appendInternalKey key) value) =
      ⟨escapeString key.userKey, escapeString value⟩ := by
  have hkey' : quote ∉ escapeString key.userKey := fun h => hkey (quote_mem_escapeString.mp h)
  have hvalue' : quote ∉ escapeString value := fun h => hvalue (quote_mem_escapeString.mp h)
  have hfirst : ∀ rest, after quote (quote :: rest) = rest := after_append List.not_mem_nil
  rw [dumpLine_appendInternalKey, recordOf, hfirst, upTo_append hkey', after_append hkey',
    after_append (quote_not_mem_dumpMiddle key), upTo_append hvalue']

/-- An entry that is printed and read back gives one record. It is the entry
exactly if key and value are plain, and without quotes it is the escaped
entry. -/
theorem append_dumpLine (key : ParsedInternalKey) (value : Bytes) (buffer : DBDumpFileBuffer)
    (hlen : (dumpLine (appendInternalKey key) value).length < 2 ^ 63) :
    ∃ record, buffer.append (dumpLine (appendInternalKey key) value) =
        some ⟨buffer.fileRecords ++ [record]⟩ ∧
      (record = ⟨key.userKey, value⟩ ↔ Plain key.userKey ∧ Plain value) ∧
      (0x27 ∉ key.userKey → 0x27 ∉ value →
        record = ⟨escapeString key.userKey, escapeString value⟩) := by
  refine ⟨_, append_eq buffer hlen, ?_, recordOf_dumpLine⟩
  rw [plain_iff, plain_iff]
  constructor
  · intro h
    -- what is read lies before a quote, so it holds none
    have hk : upTo quote _ = key.userKey := congrArg DBRecord.keyData h
    have hv : upTo quote _ = value := congrArg DBRecord.valData h
    have hkq : quote ∉ key.userKey := hk ▸ not_mem_upTo quote _
    have hvq : quote ∉ value := hv ▸ not_mem_upTo quote _
    rw [recordOf_dumpLine hkq hvq, DBRecord.mk.injEq] at h
    exact ⟨⟨hkq, h.1⟩, hvq, h.2⟩
  · rintro ⟨⟨hkq, hk⟩, hvq, hv⟩
    rw [recordOf_dumpLine hkq hvq, hk, hv]

/-- A deletion of the key `a'` and the value `b`. -/
def quotedKey : ParsedInternalKey :=
  ⟨[0x61, 0x27], 7, .deletion, by decide⟩

theorem append_dumpLine_quotedKey :
    (dumpLine (appendInternalKey quotedKey) [0x62]).length < 2 ^ 63 ∧
    ∃ record, DBDumpFileBuffer.append {} (dumpLine (appendInternalKey quotedKey) [0x62]) =
        some ⟨[] ++ [record]⟩ ∧
      (record = ⟨quotedKey.userKey, [0x62]⟩ ↔ Plain quotedKey.userKey ∧ Plain [0x62]) ∧
      (0x27 ∉ quotedKey.userKey → 0x27 ∉ [(0x62 : UInt8)] →
        record = ⟨escapeString quotedKey.userKey, escapeString [0x62]⟩) := by
  have hlen : (dumpLine (appendInternalKey quotedKey) [0x62]).length < 2 ^ 63 := by
    rw [dumpLine_appendInternalKey]
    decide
  exact ⟨hlen, append_dumpLine quotedKey [0x62] {} hlen⟩

end BloomHierarchy
