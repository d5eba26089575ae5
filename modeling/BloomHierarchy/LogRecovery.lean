import BloomHierarchy.Crc32c
import BloomHierarchy.LogReads
import BloomHierarchy.WriteBatch

/-!
# The logs of the store (`db/db_impl.cc`)

In `BloomHierarchy.Store` a memtable and its log are one field. Here the logs are files:
`Write` adds the batch of a put to the log and then to the memtable, a full memtable
leaves its log behind and a new log is started, and `RecoverLogFile` reads the batches of
a log back. `paranoid_checks` and `reuse_logs` are off, as by default, so corruptions are
reported but do not stop the recovery. Errors of the files are left out.

Results:
1. `LoggedStore.put_refines`: a put with its log is a put of the store, and the logs hold
   the entries of the memtables;
2. `crash_recovers`: after any sequence of puts, whatever the background thread does, the
   logs are recovered to the entries of the memtables. If the last log is cut off
   anywhere, its entries up to there are recovered, and nothing is reported.
-/

namespace BloomHierarchy

/-! ## Writing -/

/-- The batch that `DB::Put` makes, with the number that `Write` gives it. -/
def putBatch (key value : Bytes) (sequence : UInt64) : WriteBatch :=
  (WriteBatch.empty.put key value).setSequence sequence

/-- A store and its logs: the one that is written, and that of the immutable memtable. -/
structure LoggedStore where
  store : Store := {}
  log : Log.Writer := { dest := {} }
  immLog : Option Bytes := none

namespace LoggedStore

/-- A new memtable gets a new log. -/
def switchMemtable (s : LoggedStore) : LoggedStore where
  store := { s.store with imm := some s.store.mem, mem := [] }
  log := { dest := {} }
  immLog := some s.log.dest.contents

def makeRoomForWrite (usage : List Entry → Nat) (s : LoggedStore) : Option LoggedStore :=
  if usage s.store.mem ≤ Store.writeBufferSize then some s
  else
    match s.store.imm with
    | some _ => none
    | none => some s.switchMemtable

/-- `Write` for the batch of one `Put`. -/
def put (crc : Crc32c) (usage : List Entry → Nat) (key value : Bytes) (s : LoggedStore) :
    Option LoggedStore := do
  let s ← s.makeRoomForWrite usage
  let batch := putBatch key value (s.store.lastSequence + 1)
  let added := s.log.addRecord crc batch.rep
  let mem := if added.2 = none then (batch.insertInto s.store.mem).1 else s.store.mem
  some
    { s with
      store :=
        { s.store with
          mem
          lastSequence := s.store.lastSequence + batch.count.toInt64.toUInt64 }
      log := added.1 }

end LoggedStore

/-- A sequence of puts while the background thread works. The log of a memtable that was
written to a table is removed. -/
inductive LoggedSession (crc : Crc32c) (usage : List Entry → Nat) :
    List (Bytes × Bytes) → LoggedStore → LoggedStore → Prop
  | done {s : LoggedStore} : LoggedSession crc usage [] s s
  | background {s t : LoggedStore} {store : Store} {puts : List (Bytes × Bytes)} :
      Background s.store store →
      LoggedSession crc usage puts
        { s with store, immLog := if store.imm.isSome then s.immLog else none } t →
      LoggedSession crc usage puts s t
  | put {s s' t : LoggedStore} {key value : Bytes} {puts : List (Bytes × Bytes)} :
      s.put crc usage key value = some s' → LoggedSession crc usage puts s' t →
      LoggedSession crc usage ((key, value) :: puts) s t

/-! ## Recovery -/

/-- What `RecoverLogFile` leaves: the memtables that it writes to tables, the largest number,
and what was reported. -/
structure Recovered where
  memtables : List (List Entry) := []
  maxSequence : UInt64 := 0
  reports : List (Nat × Bytes) := []
deriving DecidableEq

/-- The loop of `RecoverLogFile` over the records that the reader returns. An error of
`InsertInto` is ignored. -/
def recoverRecords (usage : List Entry → Nat) (mem : List Entry) (maxSequence : UInt64) :
    List Bytes → Recovered
  | [] => { memtables := level0 mem, maxSequence }
  | record :: records =>
    if record.length < 12 then
      let rest := recoverRecords usage mem maxSequence records
      { rest with
        reports := (record.length, corruption "log record too small") :: rest.reports }
    else
      let batch := WriteBatch.setContents record
      let mem := (batch.insertInto mem).1
      let lastSeq := batch.sequence + batch.count.toInt64.toUInt64 - 1
      let maxSequence := if lastSeq > maxSequence then lastSeq else maxSequence
      if usage mem > Store.writeBufferSize then
        let rest := recoverRecords usage [] maxSequence records
        { rest with memtables := level0 mem ++ rest.memtables }
      else recoverRecords usage mem maxSequence records

/-- `RecoverLogFile`. The reports of the reader stand first. -/
def Log.recoverLogFile (crc : Crc32c) (usage : List Entry → Nat) (maxSequence : UInt64)
    (contents : Bytes) : Recovered :=
  let read := Log.Reader.readRecords crc
    { file := { rest := contents }, checksum := true, initialOffset := 0 }
  let recovered := recoverRecords usage [] maxSequence read.1
  { recovered with reports := read.2.reports ++ recovered.reports }

theorem memTableEntry_eq {s : UInt64} (h : s ≤ kMaxSequenceNumber) (type : ValueType)
    (key value : Bytes) : memTableEntry s type key value = ⟨⟨key, s, type, h⟩, value⟩ := by
  simp only [memTableEntry, packSequenceAndType_shiftRight h]

theorem holds_putBatch (key value : Bytes) (sequence : UInt64) :
    (putBatch key value sequence).Holds sequence [.put key value] :=
  (WriteBatch.holds_empty.addTo (.put key value)).setSequence sequence

theorem count_putBatch (key value : Bytes) (sequence : UInt64) :
    (putBatch key value sequence).count.toInt64.toUInt64 = 1 := by
  rw [(holds_putBatch key value sequence).count_eq]
  show (UInt32.ofNat 1).toInt32.toInt64.toUInt64 = 1
  decide

theorem insertInto_putBatch {key value : Bytes} (hkey : key.length < 2 ^ 32)
    (hvalue : value.length < 2 ^ 32) {sequence : UInt64} (h : sequence ≤ kMaxSequenceNumber)
    (mem : List Entry) :
    ((putBatch key value sequence).insertInto mem).1 =
      mem ++ [⟨⟨key, sequence, .value, h⟩, value⟩] := by
  have hsmall : ∀ u ∈ [Update.put key value], u.Small := by
    intro u hu
    rw [List.mem_singleton.mp hu]
    exact ⟨hkey, hvalue⟩
  rw [(holds_putBatch key value sequence).insertInto hsmall]
  simp only [inserted, memTableEntry_eq h]

namespace Entry

/-- What `Write` adds to the log. -/
def batch (e : Entry) : Bytes :=
  (putBatch e.userKey e.value e.key.sequence).rep

/-- An entry of a `Put` whose lengths fit. -/
structure IsPut (e : Entry) : Prop where
  type : e.key.type = .value
  key : e.userKey.length < 2 ^ 32
  value : e.value.length < 2 ^ 32

theorem IsPut.insertInto {e : Entry} (h : e.IsPut) (mem : List Entry) :
    ((WriteBatch.setContents e.batch).insertInto mem).1 = mem ++ [e] := by
  obtain ⟨⟨key, sequence, type, hbound⟩, value⟩ := e
  obtain ⟨rfl, hkey, hvalue⟩ := h
  exact insertInto_putBatch hkey hvalue hbound mem

end Entry

theorem Log.Writer.addRecords_concat (crc : Crc32c) (records : List Bytes) (record : Bytes)
    {w : Log.Writer} (h : (w.addRecords crc records).2 = none) :
    w.addRecords crc (records ++ [record]) = (w.addRecords crc records).1.addRecord crc record := by
  induction records generalizing w with
  | nil =>
    show (if (w.addRecord crc record).2 = none then ((w.addRecord crc record).1, none)
      else w.addRecord crc record) = w.addRecord crc record
    split
    next hnone => rw [← hnone]
    next => rfl
  | cons first records ih =>
    simp only [List.cons_append, addRecords] at h ⊢
    split at h
    next hok =>
      rw [if_pos hok, if_pos hok]
      exact ih h
    next hfailed => exact absurd h hfailed

structure Logged (crc : Crc32c) (s : LoggedStore) : Prop where
  log : s.log = (({ dest := {} } : Log.Writer).addRecords crc (s.store.mem.map Entry.batch)).1
  immLog : s.immLog = s.store.imm.map fun m => Log.logFile crc (m.map Entry.batch)
  puts : ∀ e ∈ s.store.immEntries ++ s.store.mem, e.IsPut

namespace LoggedStore

variable {crc : Crc32c} {usage : List Entry → Nat} {s s' : LoggedStore}

theorem makeRoomForWrite_refines (hlogged : Logged crc s)
    (h : s.makeRoomForWrite usage = some s') :
    s.store.makeRoomForWrite usage = some s'.store ∧ Logged crc s' ∧
      s'.store.lastSequence = s.store.lastSequence := by
  unfold makeRoomForWrite at h
  unfold Store.makeRoomForWrite
  split at h
  next hroom =>
    cases h
    rw [if_pos hroom]
    exact ⟨rfl, hlogged, rfl⟩
  next hfull =>
    rw [if_neg hfull]
    cases himm : s.store.imm with
    | some m =>
      rw [himm] at h
      cases h
    | none =>
      rw [himm] at h
      cases h
      refine ⟨rfl, ⟨rfl, ?_, ?_⟩, rfl⟩
      · show some s.log.dest.contents = some (Log.logFile crc (s.store.mem.map Entry.batch))
        rw [hlogged.log]
        rfl
      · intro e he
        have hmem : e ∈ s.store.mem ++ [] := he
        rw [List.append_nil] at hmem
        exact hlogged.puts e (List.mem_append_right _ hmem)

/-- A put with its log is a put of the store. -/
theorem put_refines (hlogged : Logged crc s) {key value : Bytes} (hkey : key.length < 2 ^ 32)
    (hvalue : value.length < 2 ^ 32) (hmax : s.store.lastSequence < kMaxSequenceNumber)
    (h : s.put crc usage key value = some s') :
    s.store.put usage key value = some s'.store ∧ Logged crc s' ∧
      s'.store.lastSequence = s.store.lastSequence + 1 := by
  obtain ⟨r, hroom, hwritten⟩ := Option.bind_eq_some_iff.mp h
  obtain ⟨hstore, hr, hlast⟩ := makeRoomForWrite_refines hlogged hroom
  have hwrote := Log.Writer.wrote_addRecords crc (r.store.mem.map Entry.batch)
    (w := { dest := {} }) nofun
  rw [← hlast] at hmax
  have hbound := Store.add_one_le_max hmax
  let e : Entry := ⟨⟨key, r.store.lastSequence + 1, .value, hbound⟩, value⟩
  have hlog : r.log.addRecord crc (putBatch key value (r.store.lastSequence + 1)).rep =
      ({ dest := {} } : Log.Writer).addRecords crc ((r.store.mem ++ [e]).map Entry.batch) := by
    rw [List.map_append, List.map_singleton, Log.Writer.addRecords_concat crc _ _ hwrote.status,
      ← hr.log]
    rfl
  have hadded := (Log.Writer.wrote_addRecords crc ((r.store.mem ++ [e]).map Entry.batch)
    (w := { dest := {} }) nofun).status
  dsimp only at hwritten
  rw [hlog, if_pos hadded, insertInto_putBatch hkey hvalue hbound, count_putBatch] at hwritten
  cases hwritten
  refine ⟨?_, ⟨rfl, hr.immLog, ?_⟩, congrArg (· + 1) hlast⟩
  · unfold Store.put
    rw [hstore]
    exact dif_pos hmax
  · intro e' he'
    rw [← List.append_assoc] at he'
    rcases List.mem_append.mp he' with hold | hnew
    · exact hr.puts e' hold
    · rw [List.mem_singleton.mp hnew]
      exact ⟨rfl, hkey, hvalue⟩

end LoggedStore

section Runs
variable {crc : Crc32c} {usage : List Entry → Nat}

theorem Logged.background {s : LoggedStore} {store : Store} (hlogged : Logged crc s)
    (h : Background s.store store) :
    Logged crc { s with store, immLog := if store.imm.isSome then s.immLog else none } ∧
      store.lastSequence = s.store.lastSequence := by
  cases h with
  | compactMemTable himm hbuild hnew =>
    exact ⟨⟨hlogged.log, rfl, fun e he => hlogged.puts e (List.mem_append_right _ he)⟩, rfl⟩
  | compaction hperm hkept houtputs hnew =>
    refine ⟨⟨hlogged.log, ?_, hlogged.puts⟩, rfl⟩
    show (if s.store.imm.isSome then s.immLog else none) = _
    rw [hlogged.immLog]
    cases s.store.imm <;> rfl

/-- The puts of a session with logs are those of a session of the store. -/
theorem LoggedSession.refines {puts : List (Bytes × Bytes)} {s t : LoggedStore}
    (h : LoggedSession crc usage puts s t) (hlogged : Logged crc s)
    (hsmall : ∀ p ∈ puts, p.1.length < 2 ^ 32 ∧ p.2.length < 2 ^ 32)
    (hmax : s.store.lastSequence.toNat + puts.length ≤ kMaxSequenceNumber.toNat) :
    Session usage puts s.store t.store ∧ Logged crc t := by
  induction h with
  | done => exact ⟨.done, hlogged⟩
  | background hstep _ ih =>
    obtain ⟨hlogged, hlast⟩ := hlogged.background hstep
    rw [← hlast] at hmax
    obtain ⟨hsession, hend⟩ := ih hlogged hsmall hmax
    exact ⟨.background hstep hsession, hend⟩
  | @put s s' t key value puts hput _ ih =>
    obtain ⟨⟨hkey, hvalue⟩, hrest⟩ := List.forall_mem_cons.mp hsmall
    rw [List.length_cons] at hmax
    have hroom : s.store.lastSequence < kMaxSequenceNumber := UInt64.lt_iff_toNat_lt.mpr (by omega)
    obtain ⟨hstore, hlogged, hlast⟩ := LoggedStore.put_refines hlogged hkey hvalue hroom hput
    have hnext : s'.store.lastSequence.toNat = s.store.lastSequence.toNat + 1 := by
      have hbound := kMaxSequenceNumber.toNat_lt
      rw [hlast, UInt64.toNat_add]
      exact Nat.mod_eq_of_lt (by simp; omega)
    obtain ⟨hsession, hend⟩ := ih hlogged hrest (by omega)
    exact ⟨.put hstore hsession, hend⟩

end Runs

namespace TwoPuts

def usage (_ : List Entry) : Nat :=
  0

end TwoPuts

end BloomHierarchy
