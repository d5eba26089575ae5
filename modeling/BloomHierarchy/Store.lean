import BloomHierarchy.Dump
import BloomHierarchy.Lib.Versions

/-!
# The LevelDB store under the database directory

What `db_impl.cc` does with the entries that are put into a database: `Put` adds
an entry to the log and to the memtable, a full memtable is switched and written
to a table in the background, compactions merge tables and drop superseded
entries, the destructor leaves the log as it is, and opening the database again
replays it into tables.

The memtable and its log file hold the same entries and are one field, and so are
the immutable memtable and its log; `BloomHierarchy.LogRecovery` has the files, and
refines this store. Versions are modelled by their set of tables:
levels decide which tables a compaction takes and in which order `Version::Get`
asks them, so here a compaction may take any tables, and `get` takes the newest
entry of all tables. Input and output errors are left out. `usage` is
`ApproximateMemoryUsage` of a memtable with the given entries; an empty memtable
always has room.

Results:
1. `perm_of_buildTable`, `flatten_recovered`: a memtable or a log is written
   without losing an entry.
2. `CompactionKeeps.covers`: a compaction drops superseded entries only.
-/

namespace BloomHierarchy

open Versions

/-! ## Entries -/

/-- An entry of a memtable, a log or a table. -/
structure Entry where
  key : ParsedInternalKey
  value : Bytes
deriving DecidableEq

namespace Entry

def userKey (e : Entry) : Bytes :=
  e.key.userKey

/-- The sequence number. -/
def number (e : Entry) : Nat :=
  e.key.sequence.toNat

end Entry

/-- `InternalKeyComparator::Compare`: by user key, and the newer one first. -/
def internalCompare (a b : ParsedInternalKey) : Ordering :=
  match compare a.userKey b.userKey with
  | .eq =>
    compare (packSequenceAndType b.sequence b.type) (packSequenceAndType a.sequence a.type)
  | r => r

/-- In the order of a memtable's or a table's iterator. -/
def InOrder (entries : List Entry) : Prop :=
  entries.Pairwise fun a b => internalCompare a.key b.key = .lt

/-- A file with the extension of tables; `table` is `none` if it was not finished. -/
structure TableFile where
  fileNumber : UInt64
  table : Option (List Entry)

def TableFile.entries (f : TableFile) : List Entry :=
  f.table.getD []

/-! ## The store -/

/-- What is in memory and on disk. In a closed database `mem` and `imm` are the
logs. -/
structure Store where
  mem : List Entry := []
  imm : Option (List Entry) := none
  /-- `versions_->LastSequence()`, while the database is open. -/
  lastSequence : UInt64 := 0
  /-- The last sequence number in the descriptor. -/
  savedSequence : UInt64 := 0
  /-- The tables of the current version. -/
  tables : List TableFile := []
  /-- Other files in the directory with the extension of tables. -/
  leftovers : List TableFile := []

namespace Store

def immEntries (s : Store) : List Entry :=
  s.imm.getD []

def tableEntries (s : Store) : List Entry :=
  s.tables.flatMap TableFile.entries

/-- What a read can find. -/
def entries (s : Store) : List Entry :=
  s.mem ++ (s.immEntries ++ s.tableEntries)

/-- The files with the extension of tables. -/
def files (s : Store) : List TableFile :=
  s.tables ++ s.leftovers

/-- `Options::write_buffer_size`. -/
def writeBufferSize : Nat :=
  4 * 1024 * 1024

/-- The newest entry of a key among `entries`. -/
def newest? (key : Bytes) (entries : List Entry) : Option Entry :=
  Versions.newest? Entry.userKey Entry.number key entries

/-- `Get`: the memtable is asked first, then the immutable one, then the tables. -/
def get (s : Store) (key : Bytes) : Option Bytes :=
  ((newest? key s.mem).or
    ((newest? key s.immEntries).or (newest? key s.tableEntries))).map Entry.value

variable (usage : List Entry → Nat)

/-- `none` if the write has to wait until the immutable memtable is written. -/
def makeRoomForWrite (s : Store) : Option Store :=
  if usage s.mem ≤ writeBufferSize then some s
  else
    match s.imm with
    | some _ => none
    | none => some { s with imm := some s.mem, mem := [] }

theorem add_one_le_max {seq : UInt64} (h : seq < kMaxSequenceNumber) :
    seq + 1 ≤ kMaxSequenceNumber := by
  have hlt := UInt64.lt_iff_toNat_lt.mp h
  have hmax : kMaxSequenceNumber.toNat = 2 ^ 56 - 1 := rfl
  rw [UInt64.le_iff_toNat_le, UInt64.toNat_add]
  change (seq.toNat + 1) % 2 ^ 64 ≤ _
  omega

/-- `none` if the write waits, or if the assertion on sequence numbers fails. -/
def put (s : Store) (key value : Bytes) : Option Store := do
  let s ← s.makeRoomForWrite usage
  if h : s.lastSequence < kMaxSequenceNumber then
    let e : Entry := ⟨⟨key, s.lastSequence + 1, .value, add_one_le_max h⟩, value⟩
    some { s with mem := s.mem ++ [e], lastSequence := s.lastSequence + 1 }
  else none

end Store

/-! ## Writing tables -/

/-- `BuildTable`: a finished table with the entries of a memtable. -/
def BuildTable (entries : List Entry) (f : TableFile) : Prop :=
  ∃ t, f.table = some t ∧ t.Perm entries ∧ InOrder t

/-- An empty memtable gives no table. -/
def level0 (entries : List Entry) : List (List Entry) :=
  if entries.isEmpty then [] else [entries]

/-- The loop of `DoCompactionWork` over the merged input. `currentUserKey` is
`none` before the first key. -/
def dropHidden (smallestSnapshot : UInt64) (isBaseLevelForKey : Bytes → Bool) :
    Option Bytes → UInt64 → List Entry → List Entry
  | _, _, [] => []
  | currentUserKey, lastSequenceForKey, e :: input =>
    let last := if currentUserKey = some e.userKey then lastSequenceForKey else kMaxSequenceNumber
    let rest := dropHidden smallestSnapshot isBaseLevelForKey (some e.userKey) e.key.sequence input
    -- hidden by a newer entry for the same user key
    if last ≤ smallestSnapshot then rest
    else if e.key.type = .deletion ∧ e.key.sequence ≤ smallestSnapshot ∧
        isBaseLevelForKey e.userKey = true then rest
    else e :: rest

/-- What a compaction of `inputs` keeps: its iterator merges their entries. The
snapshot is the last sequence number. -/
def CompactionKeeps (s : Store) (inputs : List TableFile) (kept : List Entry) : Prop :=
  ∃ merged isBaseLevelForKey, merged.Perm (inputs.flatMap TableFile.entries) ∧ InOrder merged ∧
    kept = dropHidden s.lastSequence isBaseLevelForKey none kMaxSequenceNumber merged

/-- Finished output files that hold `kept` one after the other. -/
def OutputFiles (kept : List Entry) (outputs : List TableFile) : Prop :=
  (∀ f ∈ outputs, f.table.isSome = true) ∧ outputs.flatMap TableFile.entries = kept

/-- New files have numbers that no other file has. -/
def NewFiles (old new : List TableFile) : Prop :=
  ((old ++ new).map TableFile.fileNumber).Nodup

/-! ## Steps -/

/-- What the background thread does. Both end with `RemoveObsoleteFiles`. -/
inductive Background : Store → Store → Prop
  /-- `CompactMemTable`. -/
  | compactMemTable {s : Store} {m : List Entry} {files : List TableFile} :
      s.imm = some m → List.Forall₂ BuildTable (level0 m) files → NewFiles s.files files →
      Background s { s with
        imm := none
        tables := s.tables ++ files
        savedSequence := s.lastSequence
        leftovers := [] }
  /-- `DoCompactionWork` and `InstallCompactionResults`. -/
  | compaction {s : Store} {inputs rest outputs : List TableFile} {kept : List Entry} :
      s.tables.Perm (inputs ++ rest) → CompactionKeeps s inputs kept → OutputFiles kept outputs →
      NewFiles s.files outputs →
      Background s { s with
        tables := rest ++ outputs
        savedSequence := s.lastSequence
        leftovers := [] }

/-- What the background thread can have left when the destructor stops it: the
table of a memtable that was not installed, finished outputs of a compaction, and
one that was abandoned. -/
structure Interrupted (s : Store) (flushed finished abandoned : List TableFile) : Prop where
  memTable : flushed = [] ∨ List.Forall₂ BuildTable (level0 s.immEntries) flushed
  outputs : ∃ inputs rest kept before, s.tables.Perm (inputs ++ rest) ∧
    CompactionKeeps s inputs kept ∧ before <+: kept ∧ OutputFiles before finished
  unfinished : ∀ f ∈ abandoned, f.table = none
  newFiles : NewFiles s.files (flushed ++ finished ++ abandoned)

/-- The destructor. It does not write the memtables. -/
inductive Closes : Store → Store → Prop
  | close {s : Store} {flushed finished abandoned : List TableFile} :
      Interrupted s flushed finished abandoned →
      Closes s { s with leftovers := s.leftovers ++ (flushed ++ finished ++ abandoned) }

/-- The loop of `RecoverLogFile`: the memtables it writes to tables. -/
def recoverLogFile (usage : List Entry → Nat) (mem : List Entry) :
    List Entry → List (List Entry)
  | [] => level0 mem
  | e :: log =>
    let mem := mem ++ [e]
    if usage mem > Store.writeBufferSize then mem :: recoverLogFile usage [] log
    else recoverLogFile usage mem log

namespace Store

/-- The memtables that `Recover` writes to tables, from the older log and the newer
one. -/
def recovered (usage : List Entry → Nat) (s : Store) : List (List Entry) :=
  recoverLogFile usage [] s.immEntries ++ recoverLogFile usage [] s.mem

/-- `max_sequence`. -/
def maxSequence (s : Store) : UInt64 :=
  (s.immEntries ++ s.mem).foldl
    (fun maxSequence e => if e.key.sequence > maxSequence then e.key.sequence else maxSequence) 0

/-- The last sequence number after `Recover`. -/
def recoveredSequence (s : Store) : UInt64 :=
  if s.savedSequence < s.maxSequence then s.maxSequence else s.savedSequence

end Store

/-- `DB::Open`: the logs are written to tables, then files that are not in the
version are removed. -/
inductive Opens (usage : List Entry → Nat) : Store → Store → Prop
  | recover {s : Store} {files : List TableFile} :
      List.Forall₂ BuildTable (s.recovered usage) files → NewFiles s.tables files →
      Opens usage s
        { lastSequence := s.recoveredSequence
          savedSequence := s.recoveredSequence
          tables := s.tables ++ files }

/-- A sequence of puts while the background thread works. -/
inductive Session (usage : List Entry → Nat) : List (Bytes × Bytes) → Store → Store → Prop
  | done {s : Store} : Session usage [] s s
  | background {s s' t : Store} {puts : List (Bytes × Bytes)} :
      Background s s' → Session usage puts s' t → Session usage puts s t
  | put {s s' t : Store} {key value : Bytes} {puts : List (Bytes × Bytes)} :
      s.put usage key value = some s' → Session usage puts s' t →
      Session usage ((key, value) :: puts) s t

/-! ## What is written -/

theorem flatten_level0 (entries : List Entry) : (level0 entries).flatten = entries := by
  unfold level0
  split
  · next h => exact (List.isEmpty_iff.mp h).symm
  · exact List.append_nil entries

theorem flatten_recoverLogFile (usage : List Entry → Nat) (mem log : List Entry) :
    (recoverLogFile usage mem log).flatten = mem ++ log := by
  induction log generalizing mem with
  | nil => rw [recoverLogFile, flatten_level0, List.append_nil]
  | cons e log ih =>
    rw [recoverLogFile]
    split
    · rw [List.flatten_cons, ih, List.nil_append, List.append_assoc]
      rfl
    · rw [ih, List.append_assoc]
      rfl

theorem flatten_recovered (usage : List Entry → Nat) (s : Store) :
    (s.recovered usage).flatten = s.immEntries ++ s.mem := by
  rw [Store.recovered, List.flatten_append, flatten_recoverLogFile, flatten_recoverLogFile]
  rfl

theorem perm_of_buildTable {memtables : List (List Entry)} {files : List TableFile}
    (h : List.Forall₂ BuildTable memtables files) :
    (files.flatMap TableFile.entries).Perm memtables.flatten := by
  induction h with
  | nil => exact List.Perm.refl _
  | @cons entries f memtables files hf _ ih =>
    obtain ⟨t, ht, hperm, -⟩ := hf
    rw [List.flatMap_cons, List.flatten_cons, TableFile.entries, ht]
    exact hperm.append ih

/-! ## What a compaction keeps -/

theorem number_le_of_internalCompare {a b : Entry} (h : internalCompare a.key b.key = .lt)
    (hkey : a.userKey = b.userKey) : b.number ≤ a.number := by
  have hpack : packSequenceAndType b.key.sequence b.key.type <
      packSequenceAndType a.key.sequence a.key.type := by
    have hcompare : compare a.key.userKey b.key.userKey = .eq := by
      rw [← Entry.userKey, hkey]
      exact Std.compare_self
    rw [internalCompare, hcompare] at h
    exact Std.compare_eq_lt.mp h
  -- the number is the packed value without its last byte
  rw [Entry.number, Entry.number, ← packSequenceAndType_shiftRight b.key.bounded b.key.type,
    ← packSequenceAndType_shiftRight a.key.bounded a.key.type, UInt64.toNat_shiftRight,
    UInt64.toNat_shiftRight, Nat.shiftRight_eq_div_pow, Nat.shiftRight_eq_div_pow]
  exact Nat.div_le_div_right (UInt64.lt_iff_toNat_lt.mp hpack).le

section Compaction
variable (snapshot : UInt64) (isBaseLevelForKey : Bytes → Bool)

theorem dropHidden_sublist (current : Option Bytes) (last : UInt64) (input : List Entry) :
    (dropHidden snapshot isBaseLevelForKey current last input).Sublist input := by
  induction input generalizing current last with
  | nil => exact List.Sublist.refl _
  | cons e input ih =>
    have hrest := ih (some e.userKey) e.key.sequence
    unfold dropHidden
    dsimp only
    generalize (if current = some e.userKey then last else kMaxSequenceNumber) = last
    split
    · exact hrest.cons e
    · split
      · exact hrest.cons e
      · exact hrest.cons_cons e

/-- An entry that is dropped is superseded by one that is kept, or has the user
key that was current at the start. -/
theorem dropHidden_newer {snapshot : UInt64} {input : List Entry} (horder : InOrder input)
    (hvalue : ∀ e ∈ input, e.key.type = .value) (hseq : ∀ e ∈ input, e.key.sequence ≤ snapshot)
    (hmax : snapshot < kMaxSequenceNumber) (current : Option Bytes) (last : UInt64)
    (hlast : current.isSome = true → last ≤ snapshot) :
    ∀ e ∈ input, current = some e.userKey ∨
      ∃ e' ∈ dropHidden snapshot isBaseLevelForKey current last input,
        e'.userKey = e.userKey ∧ e.number ≤ e'.number := by
  induction input generalizing current last with
  | nil => exact fun e he => by cases he
  | cons a input ih =>
    obtain ⟨ha, horder⟩ := List.pairwise_cons.mp horder
    obtain ⟨htype, hvalue⟩ := List.forall_mem_cons.mp hvalue
    obtain ⟨haseq, hseq⟩ := List.forall_mem_cons.mp hseq
    have hrest := ih horder hvalue hseq (some a.userKey) a.key.sequence fun _ => haseq
    unfold dropHidden
    by_cases hcurrent : current = some a.userKey
    · -- `a` is hidden by the entry before it
      simp only [if_pos hcurrent]
      rw [if_pos (hlast (by rw [hcurrent]; rfl)), hcurrent]
      exact List.forall_mem_cons.mpr ⟨.inl rfl, hrest⟩
    · simp only [if_neg hcurrent]
      rw [if_neg (UInt64.not_le.mpr hmax), if_neg (fun h => by rw [htype] at h; cases h.1)]
      refine List.forall_mem_cons.mpr ⟨.inr ⟨a, List.mem_cons_self, rfl, Nat.le_refl _⟩, ?_⟩
      intro e he
      rcases hrest e he with hsame | ⟨e', he', hnewer⟩
      · have hkey : a.userKey = e.userKey := Option.some.inj hsame
        exact .inr ⟨a, List.mem_cons_self, hkey, number_le_of_internalCompare (ha e he) hkey⟩
      · exact .inr ⟨e', List.mem_cons_of_mem _ he', hnewer⟩

/-- A compaction drops superseded entries only. -/
theorem CompactionKeeps.covers {s : Store} {inputs : List TableFile} {kept : List Entry}
    (h : CompactionKeeps s inputs kept)
    (hvalue : ∀ e ∈ inputs.flatMap TableFile.entries, e.key.type = .value)
    (hseq : ∀ e ∈ inputs.flatMap TableFile.entries, e.number ≤ s.lastSequence.toNat)
    (hmax : s.lastSequence < kMaxSequenceNumber) :
    kept.Subperm (inputs.flatMap TableFile.entries) ∧
      Covers Entry.userKey Entry.number (inputs.flatMap TableFile.entries) kept := by
  obtain ⟨merged, isBaseLevelForKey, hperm, horder, rfl⟩ := h
  have hsub := dropHidden_sublist s.lastSequence isBaseLevelForKey none kMaxSequenceNumber merged
  refine ⟨hsub.subperm.trans hperm.subperm, fun e he => hperm.subset (hsub.subset he), ?_⟩
  intro e he
  have hnewer := dropHidden_newer isBaseLevelForKey horder
    (fun e he => hvalue e (hperm.subset he))
    (fun e he => UInt64.le_iff_toNat_le.mpr (hseq e (hperm.subset he))) hmax none
    kMaxSequenceNumber (fun h => by cases h) e (hperm.symm.subset he)
  rcases hnewer with hnone | hnewer
  · cases hnone
  · exact hnewer

end Compaction

end BloomHierarchy
