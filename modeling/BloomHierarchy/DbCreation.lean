import BloomHierarchy.DBFiles
import BloomHierarchy.StoreRuns

/-!
# Creating a database and scanning its tables

`DbCreation` opens the database, puts its items and deletes the `DB` object.
`ScanningWithoutBloom` reads the table files of the directory. What it counts
after any sequence of such runs is compared with the values that were put last.
The one names the directory `./db/` and the other `../out/./db/`, which is the same
in the directory `out` that the program is built into.

Results:
1. `Reached.inv`: the history of a sequence of runs is what the runs put.
2. `scanningWithoutBloom_stored`: the scan counts the entries of all table files.
3. `scan_against_puts`: what the scan misses and what it counts too much.
-/

namespace BloomHierarchy

open Versions

/-! ## `DbCreation` -/

/-- `std::to_string` on an `int`. -/
def intToString (i : Int32) : Bytes :=
  (if i < 0 then ascii ['-'] else []) ++ toDecimal i.toInt.natAbs

/-- `max`, which is `p*percentageRandom` with `p = itemNumber/100`. -/
def distributionMax (itemNumber percentageRandom : Int32) : Int :=
  itemNumber.toInt.tdiv 100 * percentageRandom.toInt

/-- The arguments of one call of `DbCreation` and what `distr(gen)` returns in each
round of the loop that draws. Only calls with defined behaviour are runs: `max` is an
`int`, and every draw is between `min`, which is 1, and `max`, so there is none if `max`
is smaller. Without draws (`percentageRandom` is 0, or there is no round) the two bounds
do not matter. -/
structure DbRun where
  itemNumber : Int32
  percentageRandom : Int32
  draw : Nat → Int32
  fits : -2 ^ 31 ≤ distributionMax itemNumber percentageRandom ∧
    distributionMax itemNumber percentageRandom < 2 ^ 31
  drawn : percentageRandom ≠ 0 → ∀ i, 1 ≤ i → i < itemNumber.toNatClampNeg →
    1 ≤ (draw i).toInt ∧ (draw i).toInt ≤ distributionMax itemNumber percentageRandom

theorem distributionMax_zero (itemNumber : Int32) : distributionMax itemNumber 0 = 0 :=
  Int.mul_zero _

theorem distributionMax_zero_fits (itemNumber : Int32) :
    -2 ^ 31 ≤ distributionMax itemNumber 0 ∧ distributionMax itemNumber 0 < 2 ^ 31 := by
  rw [distributionMax_zero]
  decide

/-- `DbCreation` with the values in order. -/
def DbRun.ordered (itemNumber : Int32) : DbRun where
  itemNumber
  percentageRandom := 0
  draw _ := 0
  fits := distributionMax_zero_fits itemNumber
  drawn hne := absurd rfl hne

namespace DbRun

def key (i : Nat) : Bytes :=
  ascii ['K', 'e', 'y'] ++ toDecimal i

def val (run : DbRun) (i : Nat) : Bytes :=
  ascii ['V', 'a', 'l', 'u', 'e'] ++
    if run.percentageRandom = 0 then toDecimal i else intToString (run.draw i)

/-- The two loops from `num`, which is 1, to `itemNumber`. -/
def puts (run : DbRun) : List (Bytes × Bytes) :=
  (List.range' 1 (run.itemNumber.toNatClampNeg - 1)).map fun i => (key i, run.val i)

end DbRun

section Runs
variable (usage : List Entry → Nat)

inductive DbCreation (run : DbRun) : Store → Store → Prop
  | intro {s opened written closed : Store} :
      Opens usage s opened → Session usage run.puts opened written → Closes written closed →
      DbCreation run s closed

/-- The databases after a sequence of runs that starts in an empty directory. -/
inductive Reached : List DbRun → Store → Prop
  | empty : Reached [] {}
  | run {runs : List DbRun} {run : DbRun} {s s' : Store} :
      Reached runs s → DbCreation usage run s s' → Reached (runs ++ [run]) s'

def allPuts (runs : List DbRun) : List (Bytes × Bytes) :=
  runs.flatMap DbRun.puts

variable {usage} {runs : List DbRun} {s s' : Store}

theorem inv_empty : Inv History.empty {} where
  covers := Covers.of_mem_iff fun _ => Iff.rfl
  nodup := List.nodup_nil
  memNewer _ ha := by cases ha
  immNewer _ ha := by cases ha
  saved _ ha := by cases ha
  saved_le := Nat.le_refl _
  leftovers _ hf := by cases hf
  fileNumbers := List.nodup_nil

theorem History.length_puts (hist : History) : hist.puts.length = hist.length :=
  List.length_map _

theorem DbCreation.inv {run : DbRun} (h : DbCreation usage run s s') {hist : History}
    (hinv : Inv hist s) (hmax : hist.length + run.puts.length < kMaxSequenceNumber.toNat) :
    ∃ hist', Inv hist' s' ∧ hist'.puts = hist.puts ++ run.puts := by
  obtain ⟨hopen, hsession, hclose⟩ := h
  obtain ⟨hist', hinv', hputs⟩ := hsession.inv (hopen.inv hinv) hmax
  refine ⟨hist', hclose.inv hinv' ?_, hputs⟩
  rw [← hist'.length_puts, hputs, List.length_append, hist.length_puts]
  exact hmax

theorem Reached.inv (h : Reached usage runs s)
    (hmax : (allPuts runs).length < kMaxSequenceNumber.toNat) :
    ∃ hist, Inv hist s ∧ hist.puts = allPuts runs := by
  induction h with
  | empty => exact ⟨History.empty, inv_empty, rfl⟩
  | @run runs run s s' _ hrun ih =>
    have hall : allPuts (runs ++ [run]) = allPuts runs ++ run.puts := by
      rw [allPuts, List.flatMap_append, List.flatMap_singleton]
      rfl
    rw [hall, List.length_append] at hmax
    obtain ⟨hist, hinv, hputs⟩ := ih (by omega)
    obtain ⟨hist', hinv', hputs'⟩ := hrun.inv hinv (by rw [← hist.length_puts, hputs]; exact hmax)
    exact ⟨hist', hinv', by rw [hputs', hputs, hall]⟩

end Runs

/-! ## The text of keys and values -/

/-- Text that `DumpTable` prints as it is, in a line that is not too long. -/
def Dumpable (text : Bytes) : Prop :=
  Plain text ∧ text.length ≤ 32

theorem plain_append {a b : Bytes} (ha : Plain a) (hb : Plain b) : Plain (a ++ b) :=
  List.forall_mem_append.mpr ⟨ha, hb⟩

theorem plain_toDecimal (n : Nat) : Plain (toDecimal n) := by
  intro c hc
  obtain ⟨hlow, hhigh⟩ := mem_toDecimal hc
  refine ⟨UInt8.le_trans (by decide) hlow, UInt8.le_trans hhigh (by decide), ?_⟩
  rintro rfl
  exact absurd hlow (by decide)

theorem length_toDecimal_le {n : Nat} (hn : n < 2 ^ 64) : (toDecimal n).length ≤ 20 := by
  rw [toDecimal, ascii, List.length_map]
  exact (Nat.length_toDigits_le_iff (by decide) (by decide)).mpr (by omega)

theorem dumpable_intToString (i : Int32) :
    Plain (intToString i) ∧ (intToString i).length ≤ 21 := by
  have hlow := i.le_toInt
  have hhigh := i.toInt_lt
  have hlength : (toDecimal i.toInt.natAbs).length ≤ 20 := length_toDecimal_le (by omega)
  unfold intToString
  split
  · refine ⟨plain_append (by decide +kernel) (plain_toDecimal _), ?_⟩
    rw [List.length_append]
    exact Nat.add_le_add (Nat.le_refl 1) hlength |>.trans (by omega)
  · exact ⟨plain_toDecimal _, hlength.trans (by omega)⟩

namespace DbRun

theorem dumpable_puts (run : DbRun) : ∀ p ∈ run.puts, Dumpable p.1 ∧ Dumpable p.2 := by
  intro p hp
  obtain ⟨i, hi, rfl⟩ := List.mem_map.mp hp
  have hbound : i < 2 ^ 31 := by
    have hrange := List.mem_range'_1.mp hi
    have hitems := run.itemNumber.toNatClampNeg_lt
    omega
  have hdigits := length_toDecimal_le (n := i) (by omega)
  refine ⟨⟨plain_append (by decide +kernel) (plain_toDecimal i), ?_⟩, ?_, ?_⟩
  · simp only [key, List.length_append, ascii, List.length_map, List.length_cons, List.length_nil]
    omega
  · refine plain_append (by decide +kernel) ?_
    split
    · exact plain_toDecimal i
    · exact (dumpable_intToString _).1
  · have hnumber : (if run.percentageRandom = 0 then toDecimal i
        else intToString (run.draw i)).length ≤ 21 := by
      split
      · omega
      · exact (dumpable_intToString _).2
    simp only [val, List.length_append, ascii, List.length_map, List.length_cons, List.length_nil]
    omega

end DbRun

section Records

/-- An entry as it stands in a table. -/
def Entry.encoded (e : Entry) : Bytes × Bytes :=
  (appendInternalKey e.key, e.value)

/-- The record that the dump makes of an entry. -/
def Entry.dumped (e : Entry) : DBRecord :=
  recordOf (dumpLine e.encoded.1 e.encoded.2)

def Entry.Dumpable (e : Entry) : Prop :=
  BloomHierarchy.Dumpable e.userKey ∧ BloomHierarchy.Dumpable e.value

variable {e : Entry} {entries : List Entry}

theorem length_dumpMiddle_le (key : ParsedInternalKey) : (dumpMiddle key).length ≤ 33 := by
  have hdigits := length_toDecimal_le key.sequence.toNat_lt
  unfold dumpMiddle
  cases key.type with
  | deletion =>
    simp only [ascii, List.length_append, List.length_map, List.length_cons, List.length_nil]
    omega
  | value =>
    simp only [ascii, List.length_append, List.length_map, List.length_cons, List.length_nil]
    omega

/-- A byte takes at most the four characters of its escape. -/
theorem length_escapeString_le (value : Bytes) : (escapeString value).length ≤ 4 * value.length := by
  rw [escapeString_eq_flatMap, List.length_flatMap]
  have hbyte : ∀ c ∈ value, (escapeByte c).length ≤ 4 := by
    intro c _
    unfold escapeByte
    split
    next =>
      show 1 ≤ 4
      decide
    next => exact Nat.le_refl 4
  have hsum := List.sum_le_card_nsmul (value.map fun c => (escapeByte c).length) 4
    fun n hn => by
      obtain ⟨c, hc, rfl⟩ := List.mem_map.mp hn
      exact hbyte c hc
  rw [List.length_map, smul_eq_mul, Nat.mul_comm] at hsum
  exact hsum

theorem length_dumpLine_le (e : Entry) :
    (dumpLine e.encoded.1 e.encoded.2).length ≤ 4 * (e.userKey.length + e.value.length) + 38 := by
  have hmiddle := length_dumpMiddle_le e.key
  have hkey := length_escapeString_le e.userKey
  have hvalue := length_escapeString_le e.value
  rw [Entry.encoded, dumpLine_appendInternalKey, ← Entry.userKey]
  simp only [List.length_append, List.length_cons, ascii, List.length_map, List.length_nil]
  omega

theorem length_dumpLine_lt (he : e.Dumpable) :
    (dumpLine e.encoded.1 e.encoded.2).length < 2 ^ 63 := by
  obtain ⟨⟨-, hkey⟩, -, hvalue⟩ := he
  have hlength := length_dumpLine_le e
  omega

/-- Without a quote the record is the escaped entry. -/
theorem Entry.dumped_eq (hkey : quote ∉ e.userKey) (hvalue : quote ∉ e.value) :
    e.dumped = ⟨escapeString e.userKey, escapeString e.value⟩ :=
  recordOf_dumpLine hkey hvalue

theorem Entry.Dumpable.dumped_value (he : e.Dumpable) : e.dumped.valData = e.value := by
  obtain ⟨hvalueQuote, hvalueText⟩ := plain_iff.mp he.2.1
  rw [Entry.dumped_eq (plain_iff.mp he.1.1).1 hvalueQuote]
  exact hvalueText

/-- A table gives one record for each of its entries. -/
theorem dumpSSTable_encoded
    (hlength : ∀ e ∈ entries, (dumpLine e.encoded.1 e.encoded.2).length < 2 ^ 63) :
    dumpSSTable (some { entries := entries.map Entry.encoded }) =
      some (entries.map Entry.dumped) := by
  have hlines : dumpTable { entries := entries.map Entry.encoded } =
      entries.map fun e => dumpLine e.encoded.1 e.encoded.2 := by
    rw [dumpTable, List.append_nil, List.map_map]
    rfl
  rw [dumpSSTable_eq, hlines, List.map_map]
  · rfl
  · rw [hlines]
    intro line hline
    obtain ⟨e, he, rfl⟩ := List.mem_map.mp hline
    exact hlength e he

end Records

/-! ## The scan -/

/-- `GuessType`, by the name after the last slash. -/
def guessType (fname : Bytes) : Option FileType :=
  (parseFileName (fname.rtakeWhile (· != 0x2f))).map Prod.snd

/-- `dumpSSTable` on a path and the contents of the file. `openTable` is
`Table::Open` with one pass of the iterator. The dumps of logs and descriptors are
left out: their names do not end in `.ldb`. -/
def dumpFile (openTable : Bytes → Option TableIterator) (fname contents : Bytes) :
    List DBRecord :=
  match guessType fname with
  | some .table => (dumpSSTable (openTable contents)).getD []
  | _ => []

/-- The directory `d` holds the table files of `s`, and they can be read. -/
structure StoredIn (openTable : Bytes → Option TableIterator) (s : Store) (d : Directory) :
    Prop where
  accessible : d.Accessible
  names : ∀ stem, stem ++ dataExt ∈ d.names ↔
    ∃ f ∈ s.files, tableFileName f.fileNumber = stem ++ dataExt
  tables : ∀ f ∈ s.files, ∀ contents,
    d.contents? (tableFileName f.fileNumber) = some contents →
      openTable contents = f.table.map fun entries => { entries := entries.map Entry.encoded }

theorem slash_not_mem_tableFileName (number : UInt64) : 0x2f ∉ tableFileName number := by
  intro h
  rcases List.mem_append.mp h with h | h
  · exact absurd (mem_paddedDecimal h).1 (by decide)
  · exact absurd h (by decide)

theorem guessType_table (d : Directory) (number : UInt64) :
    guessType (d.pathOf (tableFileName number)) = some .table := by
  have hname : (d.pathOf (tableFileName number)).rtakeWhile (· != 0x2f) = tableFileName number := by
    have hall : ∀ c ∈ (tableFileName number).reverse, (c != 0x2f) = true := fun c hc => by
      refine bne_iff_ne.mpr ?_
      rintro rfl
      exact slash_not_mem_tableFileName number (List.mem_reverse.mp hc)
    have hslash : (d.path ++ ascii ['/']).reverse.takeWhile (· != 0x2f) = [] := by
      rw [List.reverse_append]
      rfl
    rw [Directory.pathOf, List.rtakeWhile, List.reverse_append, List.takeWhile_append_of_pos hall,
      hslash, List.append_nil, List.reverse_reverse]
  rw [guessType, hname, parseFileName_tableFileName]
  rfl

theorem tableFileName_injective : Function.Injective tableFileName := by
  intro a b hab
  have hparse := parseFileName_tableFileName a
  rw [hab, parseFileName_tableFileName] at hparse
  cases hparse
  rfl

section Scan
variable {openTable : Bytes → Option TableIterator} {s : Store} {d : Directory}

/-- The scan visits each table file once. -/
theorem StoredIn.listing_perm (h : StoredIn openTable s d)
    (hnumbers : (s.files.map TableFile.fileNumber).Nodup) (order : ReaddirOrder) :
    (listFilesWithExtension d order dataExt).Perm
      (s.files.map fun f => d.pathOf (tableFileName f.fileNumber)) := by
  have hnodup : (s.files.map fun f => d.pathOf (tableFileName f.fileNumber)).Nodup := by
    have hmap := hnumbers.map fun a b hab =>
      tableFileName_injective (d.pathOf_injective hab)
    rwa [List.map_map] at hmap
  refine (List.perm_ext_iff_of_nodup (listFilesWithExtension_nodup h.accessible order dataExt)
    hnodup).mpr fun p => ?_
  rw [mem_listFilesWithExtension h.accessible, List.mem_map]
  constructor
  · rintro ⟨stem, hstem, rfl⟩
    obtain ⟨f, hf, hname⟩ := (h.names stem).mp hstem
    exact ⟨f, hf, by rw [hname]⟩
  · rintro ⟨f, hf, rfl⟩
    exact ⟨paddedDecimal f.fileNumber, (h.names _).mpr ⟨f, hf, rfl⟩, rfl⟩

theorem StoredIn.ssTableRecords (h : StoredIn openTable s d) {f : TableFile} (hf : f ∈ s.files)
    (hlength : ∀ e ∈ f.entries, (dumpLine e.encoded.1 e.encoded.2).length < 2 ^ 63) :
    ssTableRecords (dumpFile openTable) d (d.pathOf (tableFileName f.fileNumber)) =
      f.entries.map Entry.dumped := by
  obtain ⟨contents, hcontents⟩ : ∃ contents,
      d.contents? (tableFileName f.fileNumber) = some contents := by
    refine Option.ne_none_iff_exists'.mp fun hnone => ?_
    exact Directory.contents?_eq_none.mp hnone ((h.names _).mpr ⟨f, hf, rfl⟩)
  rw [BloomHierarchy.ssTableRecords, Directory.read?_pathOf h.accessible, hcontents]
  dsimp only
  rw [dumpFile, guessType_table, h.tables f hf contents hcontents]
  cases htable : f.table with
  | none =>
    rw [TableFile.entries, htable]
    rfl
  | some entries =>
    rw [TableFile.entries, htable, Option.getD_some] at hlength ⊢
    show (dumpSSTable (some { entries := entries.map Entry.encoded })).getD [] = _
    rw [dumpSSTable_encoded hlength]
    rfl

/-- The scan counts the entries of all table files whose record has the value. -/
theorem scanningWithoutBloom_stored (h : StoredIn openTable s d)
    (hnumbers : (s.files.map TableFile.fileNumber).Nodup)
    (hlength : ∀ f ∈ s.files, ∀ e ∈ f.entries,
      (dumpLine e.encoded.1 e.encoded.2).length < 2 ^ 63) (order : ReaddirOrder) (value : Bytes) :
    scanningWithoutBloom (dumpFile openTable) d order value =
      (s.files.flatMap TableFile.entries).countP fun e => e.dumped.valData = value := by
  rw [scanningWithoutBloom_eq, ((h.listing_perm hnumbers order).map _).sum_nat, List.map_map,
    List.countP_flatMap]
  refine congrArg List.sum (List.map_congr_left fun f hf => ?_)
  show retrieveFromSStable _ _ (d.pathOf (tableFileName f.fileNumber)) value = _
  rw [retrieveFromSStable_eq, h.ssTableRecords hf (hlength f hf), List.countP_map]
  rfl

/-- Values that are printed as they are. -/
theorem scanningWithoutBloom_dumpable (h : StoredIn openTable s d)
    (hnumbers : (s.files.map TableFile.fileNumber).Nodup)
    (hentries : ∀ f ∈ s.files, ∀ e ∈ f.entries, e.Dumpable) (order : ReaddirOrder) (value : Bytes) :
    scanningWithoutBloom (dumpFile openTable) d order value =
      (s.files.flatMap TableFile.entries).countP fun e => e.value = value := by
  rw [scanningWithoutBloom_stored h hnumbers
    (fun f hf e he => length_dumpLine_lt (hentries f hf e he))]
  refine List.countP_congr fun e he => ?_
  obtain ⟨f, hf, he⟩ := List.mem_flatMap.mp he
  rw [(hentries f hf e he).dumped_value]

end Scan

/-! ## The scan against the last puts -/

namespace Store

/-- The newest entry of a key. -/
def current (s : Store) (key : Bytes) : Option Entry :=
  newest? key s.entries

/-- The entries that are in a log and in no table of the current version. -/
def logEntries (s : Store) : List Entry :=
  (s.mem ++ s.immEntries).filter fun e => e ∉ s.tableEntries

end Store

section Counting
variable {hist : History} {s : Store} {value : Bytes}

/-- The newest entry of a key is that of its last put. -/
theorem Inv.current_value (h : Inv hist s) (key : Bytes) :
    (s.current key).map Entry.value = lastPut hist.puts key := by
  rw [Store.current, h.newest?_entries, hist.newest?_eq]

/-- No entry is in a log and in a table. -/
theorem Inv.logEntries_eq (h : Inv hist s) : s.logEntries = s.mem ++ s.immEntries := by
  refine List.filter_eq_self.mpr fun e he => decide_eq_true fun htable => ?_
  have hnodup := h.nodup
  rw [Store.entries, ← List.append_assoc] at hnodup
  exact (List.nodup_append.mp hnodup).2.2 e he e htable rfl

theorem Inv.mem_hist_of_file (h : Inv hist s) {f : TableFile} (hf : f ∈ s.files) :
    f.entries ⊆ hist.entries := by
  rcases List.mem_append.mp hf with hf | hf
  · exact fun e he => h.mem_hist (mem_entries_of_table (entries_subset_flatMap hf he))
  · exact h.leftovers f hf

/-- Everything in a table file is the text of some put. -/
theorem Inv.dumpable (h : Inv hist s) {runs : List DbRun} (hputs : hist.puts = allPuts runs)
    {f : TableFile} (hf : f ∈ s.files) {e : Entry} (he : e ∈ f.entries) : e.Dumpable := by
  have hmem : (e.userKey, e.value) ∈ allPuts runs := by
    rw [← hputs]
    exact List.mem_map_of_mem (h.mem_hist_of_file hf he)
  obtain ⟨run, -, hrun⟩ := List.mem_flatMap.mp hmem
  exact run.dumpable_puts _ hrun

/-- The keys whose newest entry has the value `value` and is in `part`. -/
def keysIn (s : Store) (value : Bytes) (part : List Entry) : Set Bytes :=
  {key | ∃ e ∈ part, e.value = value ∧ s.current key = some e}

theorem mem_keysIn {part : List Entry} {key : Bytes} :
    key ∈ keysIn s value part ↔
      ∃ e, (e ∈ part ∧ e.value = value ∧ s.current e.userKey = some e) ∧ e.userKey = key := by
  constructor
  · rintro ⟨e, he, hvalue, hcurrent⟩
    obtain ⟨-, hkey, -⟩ := newest?_eq_some hcurrent
    exact ⟨e, ⟨he, hvalue, by rw [hkey, hcurrent]⟩, hkey⟩
  · rintro ⟨e, ⟨he, hvalue, hcurrent⟩, rfl⟩
    exact ⟨e, he, hvalue, hcurrent⟩

/-- They are as many as the newest entries of the value there. -/
theorem Inv.ncard_keysIn (h : Inv hist s) {part : List Entry} (hpart : part.Subperm s.entries) :
    (keysIn s value part).ncard =
      part.countP fun e => e.value = value ∧ s.current e.userKey = some e := by
  let found := part.filter fun e => e.value = value ∧ s.current e.userKey = some e
  have hfound : ∀ e, e ∈ found ↔ e ∈ part ∧ e.value = value ∧ s.current e.userKey = some e :=
    fun e => by rw [List.mem_filter, decide_eq_true_iff]
  -- two newest entries of one key are the same
  have hnodup : (found.map Entry.userKey).Nodup := by
    refine ((nodup_of_subperm hpart h.nodup).filter _).map_on fun a ha b hb hkey => ?_
    have hcurrent := ((hfound a).mp ha).2.2
    rw [hkey, ((hfound b).mp hb).2.2] at hcurrent
    exact (Option.some.inj hcurrent).symm
  have hset : keysIn s value part = ((found.map Entry.userKey).toFinset : Set Bytes) := by
    ext key
    rw [mem_keysIn, List.coe_toFinset, Set.mem_ofPred_eq, List.mem_map]
    exact exists_congr fun e => by rw [hfound]
  rw [hset, Set.ncard_coe_finset, List.toFinset_card_of_nodup hnodup, List.length_map,
    List.countP_eq_length_filter]

/-- The keys whose last put has the value. -/
theorem Inv.keys_eq (h : Inv hist s) :
    {key | lastPut hist.puts key = some value} = keysIn s value s.entries := by
  ext key
  rw [Set.mem_ofPred_eq, ← h.current_value, Option.map_eq_some_iff]
  constructor
  · rintro ⟨e, hcurrent, hvalue⟩
    exact ⟨e, (newest?_eq_some hcurrent).1, hvalue, hcurrent⟩
  · rintro ⟨e, -, hvalue, hcurrent⟩
    exact ⟨e, hcurrent, hvalue⟩

end Counting

/-- What the scan of the table files counts after any sequence of runs, against the
keys whose last put has the value. The newest entry of every key is still that of its
last put. The scan misses the keys whose newest entry is in a log and in no table, and
it counts too much: entries of tables that are superseded, and entries of files that
LevelDB has left behind. -/
theorem scan_against_puts {usage : List Entry → Nat} {runs : List DbRun} {s : Store}
    (hreached : Reached usage runs s)
    (hmax : (allPuts runs).length < kMaxSequenceNumber.toNat)
    {openTable : Bytes → Option TableIterator} {d : Directory} (hstored : StoredIn openTable s d)
    (order : ReaddirOrder) (value : Bytes) :
    (∀ key, (s.current key).map Entry.value = lastPut (allPuts runs) key) ∧
    scanningWithoutBloom (dumpFile openTable) d order value +
        (keysIn s value s.logEntries).ncard =
      {key | lastPut (allPuts runs) key = some value}.ncard +
        (s.tableEntries.countP fun e => e.value = value ∧ s.current e.userKey ≠ some e) +
        (s.leftovers.flatMap TableFile.entries).countP fun e => e.value = value := by
  obtain ⟨hist, h, hputs⟩ := hreached.inv hmax
  refine ⟨fun key => hputs ▸ h.current_value key, ?_⟩
  have hlogs : (s.mem ++ s.immEntries).Subperm s.entries := by
    rw [Store.entries, ← List.append_assoc]
    exact (List.sublist_append_left _ _).subperm
  have hscan := scanningWithoutBloom_dumpable hstored h.fileNumbers
    (fun f hf e he => h.dumpable hputs hf he) order value
  have hfiles : s.files.flatMap TableFile.entries =
      s.tableEntries ++ s.leftovers.flatMap TableFile.entries := List.flatMap_append
  -- an entry of a table is the newest of its key or superseded
  have hsplit : s.tableEntries.countP (fun e => e.value = value) =
      s.tableEntries.countP (fun e => e.value = value ∧ s.current e.userKey = some e) +
        s.tableEntries.countP (fun e => e.value = value ∧ s.current e.userKey ≠ some e) := by
    rw [List.countP_eq_countP_filter_add _ _ fun e => s.current e.userKey = some e,
      List.countP_filter, List.countP_filter]
    simp only [Bool.decide_and, decide_not]
  rw [hscan, hfiles, List.countP_append, hsplit, ← hputs, h.keys_eq, h.logEntries_eq,
    h.ncard_keysIn hlogs, h.ncard_keysIn (List.Subperm.refl _), Store.entries,
    List.countP_append, List.countP_append, List.countP_append]
  omega

/-! ## One item -/

namespace OneItem

/-- `DbCreation` with `itemNumber` 2, which puts `Value1` under `Key1`. -/
def run : DbRun :=
  .ordered 2

/-- A memtable takes a block of 4 KiB and less than that for each entry. -/
def usage (entries : List Entry) : Nat :=
  4096 + 4096 * entries.length

def item (sequence : UInt64) (bounded : sequence ≤ kMaxSequenceNumber) : Entry :=
  ⟨⟨DbRun.key 1, sequence, .value, bounded⟩, run.val 1⟩

/-- After the first run the item is in the log only. -/
def closed : Store where
  mem := [item 1 (by decide)]
  lastSequence := 1

theorem puts_run : run.puts = [(DbRun.key 1, run.val 1)] := by decide +kernel

theorem closes_of_no_leftovers (s : Store) (h : (s.files.map TableFile.fileNumber).Nodup) :
    Closes s s := by
  have hleft : Interrupted s [] [] [] := by
    have hkeeps : CompactionKeeps s [] [] :=
      ⟨[], fun _ => false, List.Perm.refl _, List.Pairwise.nil, rfl⟩
    refine ⟨.inl rfl, ⟨[], s.tables, [], [], List.Perm.refl _, hkeeps, List.prefix_rfl,
      fun f hf => (by cases hf), rfl⟩, fun f hf => (by cases hf), ?_⟩
    rw [NewFiles, List.append_nil, List.append_nil, List.append_nil]
    exact h
  have hclose := Closes.close hleft
  simp only [List.append_nil] at hclose
  exact hclose

theorem session_run {s s' : Store} (h : s.put usage (DbRun.key 1) (run.val 1) = some s') :
    Session usage run.puts s s' := by
  rw [puts_run]
  exact .put h .done

theorem reached : Reached usage [run] closed := by
  have hopen : Opens usage {} {} := .recover .nil List.nodup_nil
  show Reached usage ([] ++ [run]) closed
  exact .run .empty (.intro hopen (session_run rfl) (closes_of_no_leftovers _ List.nodup_nil))

/-- The second run has written the item of the first one to a table. -/
def table : TableFile :=
  ⟨5, some [item 1 (by decide)]⟩

def closedAgain : Store where
  mem := [item 2 (by decide)]
  lastSequence := 2
  savedSequence := 1
  tables := [table]

theorem reachedAgain : Reached usage [run, run] closedAgain := by
  have hbuild : BuildTable [item 1 (by decide)] table :=
    ⟨_, rfl, List.Perm.refl _, List.pairwise_singleton _ _⟩
  have hopen : Opens usage closed { lastSequence := 1, savedSequence := 1, tables := [table] } :=
    .recover (.cons hbuild .nil) (List.nodup_singleton _)
  show Reached usage ([run] ++ [run]) closedAgain
  exact .run reached
    (.intro hopen (session_run rfl) (closes_of_no_leftovers _ (List.nodup_singleton _)))

/-- A reader that knows one table. -/
def openTable (contents : Bytes) : Option TableIterator :=
  if contents = [5] then some { entries := [(item 1 (by decide)).encoded] } else none

def directory : Directory where
  path := ascii ['d']
  files := [(tableFileName 5, [5])]
  nodup := List.nodup_singleton _

theorem storedIn : StoredIn openTable closedAgain directory where
  accessible := ⟨rfl, fun _ => rfl, fun _ => rfl⟩
  names stem := by
    show stem ++ dataExt ∈ [tableFileName 5] ↔ ∃ f ∈ [table], _
    rw [List.mem_singleton]
    constructor
    · intro h
      exact ⟨table, List.mem_cons_self, h.symm⟩
    · rintro ⟨f, hf, h⟩
      rw [List.mem_singleton.mp hf] at h
      exact h.symm
  tables f hf contents hcontents := by
    obtain rfl := List.mem_singleton.mp hf
    have hmem := List.mem_singleton.mp (Directory.contents?_eq_some.mp hcontents)
    cases hmem
    rfl

end OneItem

/-- After two runs the scan counts the superseded entry in the table and misses the
newest one in the log. -/
theorem scan_against_puts_twice :
    (allPuts [OneItem.run, OneItem.run]).length < kMaxSequenceNumber.toNat ∧
    (∀ key, (OneItem.closedAgain.current key).map Entry.value =
      lastPut (allPuts [OneItem.run, OneItem.run]) key) ∧
    scanningWithoutBloom (dumpFile OneItem.openTable) OneItem.directory .stored
          (OneItem.run.val 1) +
        (keysIn OneItem.closedAgain (OneItem.run.val 1) OneItem.closedAgain.logEntries).ncard =
      {key | lastPut (allPuts [OneItem.run, OneItem.run]) key =
          some (OneItem.run.val 1)}.ncard +
        (OneItem.closedAgain.tableEntries.countP fun e =>
          e.value = OneItem.run.val 1 ∧ OneItem.closedAgain.current e.userKey ≠ some e) +
        (OneItem.closedAgain.leftovers.flatMap TableFile.entries).countP fun e =>
          e.value = OneItem.run.val 1 := by
  have hmax : (allPuts [OneItem.run, OneItem.run]).length < kMaxSequenceNumber.toNat := by
    decide +kernel
  exact ⟨hmax, scan_against_puts OneItem.reachedAgain hmax OneItem.storedIn .stored _⟩

/-- After one run there is a key with the value `Value1`, and the scan finds no
match. -/
theorem scan_misses_item_in_log :
    Reached OneItem.usage [OneItem.run] OneItem.closed ∧
    StoredIn OneItem.openTable OneItem.closed (Directory.empty (ascii ['d'])) ∧
    scanningWithoutBloom (dumpFile OneItem.openTable) (Directory.empty (ascii ['d'])) .stored
      (OneItem.run.val 1) = 0 ∧
    {key | OneItem.closed.get key = some (OneItem.run.val 1)}.ncard = 1 := by
  have hstored : StoredIn OneItem.openTable OneItem.closed (Directory.empty (ascii ['d'])) := by
    refine ⟨Directory.accessible_empty _, fun stem => ?_, fun f hf => (by cases hf)⟩
    exact ⟨fun h => (by cases h), fun ⟨f, hf, _⟩ => (by cases hf)⟩
  refine ⟨OneItem.reached, hstored, rfl, ?_⟩
  obtain ⟨hist, h, hputs⟩ := OneItem.reached.inv (by decide +kernel)
  have hkeys : {key | OneItem.closed.get key = some (OneItem.run.val 1)} = {DbRun.key 1} := by
    ext key
    have hall : allPuts [OneItem.run] = [(DbRun.key 1, OneItem.run.val 1)] := by
      rw [allPuts, List.flatMap_singleton, OneItem.puts_run]
    rw [Set.mem_ofPred_eq, Set.mem_singleton_iff, h.get_eq, hputs, hall, lastPut,
      List.reverse_singleton]
    by_cases hkey : DbRun.key 1 = key
    · simp [hkey]
    · simp [hkey, Ne.symm hkey]
  rw [hkeys, Set.ncard_singleton]

end BloomHierarchy
