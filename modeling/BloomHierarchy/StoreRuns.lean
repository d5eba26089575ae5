import BloomHierarchy.Store

/-!
# What every run of the store keeps

A run is described by its history, the entries that were put in order. Whatever
the background thread does and however often the database is closed and opened
again, no entry is lost but those that are superseded, and none appears twice.

Results:
1. `Session.inv`, `Closes.inv`, `Opens.inv`: the invariant of a run.
2. `Inv.get_eq`: `get` returns what was put last.
3. `Opens.get_eq`: and it returns the same after the database is opened again.
-/

namespace BloomHierarchy

open Versions

/-! ## Histories -/

/-- All entries that were put, with the sequence numbers 1, 2, 3, … -/
structure History where
  entries : List Entry
  numbered : entries.map Entry.number = List.range' 1 entries.length
  values : ∀ e ∈ entries, e.key.type = .value

namespace History

def empty : History :=
  ⟨[], rfl, fun e he => by cases he⟩

def length (h : History) : Nat :=
  h.entries.length

def puts (h : History) : List (Bytes × Bytes) :=
  h.entries.map fun e => (e.userKey, e.value)

/-- The history after one more put. -/
def add (h : History) (e : Entry) (hnumber : e.number = h.length + 1)
    (hvalue : e.key.type = .value) : History where
  entries := h.entries ++ [e]
  numbered := by
    rw [List.map_append, h.numbered, List.length_append, List.length_singleton,
      List.range'_1_concat, List.map_singleton, hnumber, Nat.add_comm 1]
    rfl
  values := List.forall_mem_append.mpr ⟨h.values, List.forall_mem_singleton.mpr hvalue⟩

theorem number_le {h : History} {e : Entry} (he : e ∈ h.entries) : e.number ≤ h.length := by
  have hmem : e.number ∈ h.entries.map Entry.number := List.mem_map_of_mem he
  rw [h.numbered, List.mem_range'_1] at hmem
  have hlength : h.length = h.entries.length := rfl
  omega

theorem increasing (h : History) : h.entries.Pairwise fun a b => a.number < b.number := by
  rw [← List.pairwise_map (f := Entry.number) (R := (· < ·)), h.numbered]
  exact List.pairwise_lt_range'

theorem injOn (h : History) : Set.InjOn Entry.number {e | e ∈ h.entries} :=
  injOn_of_pairwise h.increasing

end History

/-! ## The invariant -/

structure Inv (hist : History) (s : Store) : Prop where
  /-- No entry is lost but those that are superseded. -/
  covers : Covers Entry.userKey Entry.number hist.entries s.entries
  /-- No entry is in two places. -/
  nodup : s.entries.Nodup
  memNewer : ∀ a ∈ s.immEntries ++ s.tableEntries, ∀ b ∈ s.mem, a.number < b.number
  immNewer : ∀ a ∈ s.tableEntries, ∀ b ∈ s.immEntries, a.number < b.number
  saved : ∀ a ∈ s.tableEntries, a.number ≤ s.savedSequence.toNat
  saved_le : s.savedSequence.toNat ≤ hist.length
  leftovers : ∀ f ∈ s.leftovers, f.entries ⊆ hist.entries
  fileNumbers : (s.files.map TableFile.fileNumber).Nodup

/-- In an open database the last sequence number is that of the last put. -/
structure OpenInv (hist : History) (s : Store) : Prop extends Inv hist s where
  last : s.lastSequence.toNat = hist.length

theorem nodup_of_subperm {α : Type*} {l l' : List α} (h : l.Subperm l') (hl' : l'.Nodup) :
    l.Nodup := by
  obtain ⟨l₁, hperm, hsub⟩ := h
  exact hperm.nodup_iff.mp (hl'.sublist hsub)

theorem subperm_newFiles {old new files : List TableFile} (h : NewFiles old new)
    (hfiles : files.Subperm (old ++ new)) : (files.map TableFile.fileNumber).Nodup := by
  obtain ⟨l, hperm, hsub⟩ := hfiles
  exact (hperm.map _).nodup_iff.mp (h.sublist (hsub.map _))

section Steps
variable {hist : History} {s s' : Store}

namespace Inv

theorem mem_hist (h : Inv hist s) {e : Entry} (he : e ∈ s.entries) : e ∈ hist.entries :=
  h.covers.subset he

theorem number_le (h : Inv hist s) {e : Entry} (he : e ∈ s.entries) : e.number ≤ hist.length :=
  History.number_le (h.mem_hist he)

theorem mem_entries_of_table {e : Entry} (he : e ∈ s.tableEntries) : e ∈ s.entries :=
  List.mem_append_right _ (List.mem_append_right _ he)

theorem injOn (h : Inv hist s) : Set.InjOn Entry.number {e | e ∈ s.entries} :=
  hist.injOn.mono fun _ he => h.mem_hist he

/-- What a compaction of some tables does to the entries. -/
theorem compactionKeeps (h : OpenInv hist s) (hmax : hist.length < kMaxSequenceNumber.toNat)
    {inputs rest : List TableFile} (htables : s.tables.Perm (inputs ++ rest)) {kept : List Entry}
    (hkept : CompactionKeeps s inputs kept) :
    kept.Subperm (inputs.flatMap TableFile.entries) ∧
      Covers Entry.userKey Entry.number (inputs.flatMap TableFile.entries) kept := by
  have hsub : inputs.flatMap TableFile.entries ⊆ s.entries := fun e he => by
    refine mem_entries_of_table ((htables.flatMap_right _).symm.subset ?_)
    rw [List.flatMap_append]
    exact List.mem_append_left _ he
  refine hkept.covers (fun e he => hist.values e (h.mem_hist (hsub he))) (fun e he => ?_) ?_
  · rw [h.last]
    exact h.number_le (hsub he)
  · rw [UInt64.lt_iff_toNat_lt, h.last]
    exact hmax

end Inv

/-- The immutable memtable becomes a table. -/
theorem inv_compactMemTable (h : OpenInv hist s) {m : List Entry} {files : List TableFile}
    (himm : s.imm = some m) (hbuild : List.Forall₂ BuildTable (level0 m) files)
    (hnew : NewFiles s.files files) :
    OpenInv hist { s with
      imm := none
      tables := s.tables ++ files
      savedSequence := s.lastSequence
      leftovers := [] } := by
  have hm : s.immEntries = m := by
    rw [Store.immEntries, himm]
    rfl
  have hfiles : (files.flatMap TableFile.entries).Perm s.immEntries := by
    have hperm := perm_of_buildTable hbuild
    rwa [flatten_level0, ← hm] at hperm
  have htables : ((s.tables ++ files).flatMap TableFile.entries).Perm
      (s.immEntries ++ s.tableEntries) := by
    rw [List.flatMap_append]
    exact (hfiles.append_left _).trans List.perm_append_comm
  have hentries : (s.mem ++ ([] ++ (s.tables ++ files).flatMap TableFile.entries)).Perm s.entries :=
    htables.append_left _
  refine ⟨⟨h.covers.trans (.of_mem_iff fun e => hentries.mem_iff), hentries.nodup_iff.mpr h.nodup,
    fun a ha => h.memNewer a (htables.subset ha), fun a _ b hb => (by cases hb), fun a ha => ?_,
    h.last.le, fun f hf => (by cases hf), subperm_newFiles hnew ?_⟩, h.last⟩
  · rw [h.last]
    exact h.number_le (hentries.subset (List.mem_append_right _ ha))
  · show ((s.tables ++ files) ++ []).Subperm (s.files ++ files)
    rw [List.append_nil]
    exact (List.sublist_append_left s.tables s.leftovers).subperm.append (List.Subperm.refl files)

/-- Some tables are replaced by the outputs of a compaction. -/
theorem inv_compaction (h : OpenInv hist s) (hmax : hist.length < kMaxSequenceNumber.toNat)
    {inputs rest outputs : List TableFile} {kept : List Entry}
    (htables : s.tables.Perm (inputs ++ rest)) (hkept : CompactionKeeps s inputs kept)
    (houtputs : OutputFiles kept outputs) (hnew : NewFiles s.files outputs) :
    OpenInv hist { s with
      tables := rest ++ outputs
      savedSequence := s.lastSequence
      leftovers := [] } := by
  obtain ⟨hsub, hcovers⟩ := Inv.compactionKeeps h hmax htables hkept
  have hbefore : (rest.flatMap TableFile.entries ++ inputs.flatMap TableFile.entries).Perm
      s.tableEntries := by
    rw [← List.flatMap_append]
    exact (List.perm_append_comm.trans htables.symm).flatMap_right _
  have hafter : (rest ++ outputs).flatMap TableFile.entries =
      rest.flatMap TableFile.entries ++ kept := by
    rw [List.flatMap_append, houtputs.2]
  -- the tables lose superseded entries only
  have hthin : ((rest ++ outputs).flatMap TableFile.entries).Subperm s.tableEntries := by
    rw [hafter]
    exact ((List.Subperm.refl _).append hsub).trans hbefore.subperm
  have hkeep : Covers Entry.userKey Entry.number s.tableEntries
      ((rest ++ outputs).flatMap TableFile.entries) := by
    rw [hafter]
    exact (Covers.of_mem_iff fun e => hbefore.mem_iff).trans
      ((Covers.of_mem_iff fun _ => Iff.rfl).append hcovers)
  have hentries : (s.mem ++ (s.immEntries ++ (rest ++ outputs).flatMap TableFile.entries)).Subperm
      s.entries :=
    (List.Subperm.refl _).append ((List.Subperm.refl _).append hthin)
  refine ⟨⟨h.covers.trans ?_, nodup_of_subperm hentries h.nodup, fun a ha => ?_,
    fun a ha => h.immNewer a (hthin.subset ha), fun a ha => ?_, h.last.le,
    fun f hf => (by cases hf), subperm_newFiles hnew ?_⟩, h.last⟩
  · exact (Covers.of_mem_iff fun _ => Iff.rfl).append
      ((Covers.of_mem_iff fun _ => Iff.rfl).append hkeep)
  · exact h.memNewer a (((List.Subperm.refl _).append hthin).subset ha)
  · rw [h.last]
    exact h.number_le (Inv.mem_entries_of_table (hthin.subset ha))
  · show ((rest ++ outputs) ++ []).Subperm (s.files ++ outputs)
    rw [List.append_nil]
    have hrest : rest.Subperm s.tables :=
      (List.sublist_append_right inputs rest).subperm.trans htables.symm.subperm
    exact (hrest.trans (List.sublist_append_left _ _).subperm).append (List.Subperm.refl outputs)

theorem Background.inv (hb : Background s s') (h : OpenInv hist s)
    (hmax : hist.length < kMaxSequenceNumber.toNat) : OpenInv hist s' := by
  cases hb with
  | compactMemTable himm hbuild hnew => exact inv_compactMemTable h himm hbuild hnew
  | compaction htables hkept houtputs hnew =>
    exact inv_compaction h hmax htables hkept houtputs hnew

/-! ## Puts -/

theorem makeRoomForWrite_inv {usage : List Entry → Nat} (h : OpenInv hist s)
    (hroom : s.makeRoomForWrite usage = some s') : OpenInv hist s' := by
  unfold Store.makeRoomForWrite at hroom
  split at hroom
  · cases hroom
    exact h
  · split at hroom
    · cases hroom
    · next himm =>
      cases hroom
      have hnone : s.immEntries = [] := by
        rw [Store.immEntries, himm]
        rfl
      have hentries : s.mem ++ s.tableEntries = s.entries := by
        rw [Store.entries, hnone, List.nil_append]
      refine ⟨⟨?_, ?_, fun a _ b hb => (by cases hb), fun a ha => ?_, h.saved, h.saved_le,
        h.leftovers, h.fileNumbers⟩, h.last⟩
      · show Covers _ _ _ (s.mem ++ s.tableEntries)
        rw [hentries]
        exact h.covers
      · show (s.mem ++ s.tableEntries).Nodup
        rw [hentries]
        exact h.nodup
      · exact h.memNewer a (List.mem_append_right _ ha)

/-- A put appends one entry, after making room. -/
theorem put_eq_some {usage : List Entry → Nat} {key value : Bytes}
    (hput : s.put usage key value = some s') :
    ∃ r e, s.makeRoomForWrite usage = some r ∧ e.userKey = key ∧ e.value = value ∧
      e.key.type = .value ∧ e.number = r.lastSequence.toNat + 1 ∧
      (r.lastSequence + 1).toNat = r.lastSequence.toNat + 1 ∧
      s' = { r with mem := r.mem ++ [e], lastSequence := r.lastSequence + 1 } := by
  unfold Store.put at hput
  obtain ⟨r, hroom, hput⟩ := Option.bind_eq_some_iff.mp hput
  split at hput
  · next hlt =>
    cases hput
    have hnext : (r.lastSequence + 1).toNat = r.lastSequence.toNat + 1 := by
      have hbound := UInt64.lt_iff_toNat_lt.mp hlt
      have hmax : kMaxSequenceNumber.toNat = 2 ^ 56 - 1 := rfl
      rw [UInt64.toNat_add]
      change (r.lastSequence.toNat + 1) % 2 ^ 64 = _
      omega
    exact ⟨r, ⟨⟨key, r.lastSequence + 1, .value, Store.add_one_le_max hlt⟩, value⟩, hroom, rfl, rfl,
      rfl, hnext, hnext, rfl⟩
  · cases hput

theorem put_inv {usage : List Entry → Nat} {key value : Bytes} (h : OpenInv hist s)
    (hput : s.put usage key value = some s') :
    ∃ hist', OpenInv hist' s' ∧ hist'.puts = hist.puts ++ [(key, value)] := by
  obtain ⟨r, e, hroom, rfl, rfl, htype, hnumber, hnext, rfl⟩ := put_eq_some hput
  have hr := makeRoomForWrite_inv h hroom
  rw [hr.last] at hnumber hnext
  have hnewest : ∀ a ∈ r.entries, a.number < e.number := fun a ha => by
    have hle := hr.number_le ha
    omega
  have hentries : (r.mem ++ [e] ++ (r.immEntries ++ r.tableEntries)).Perm (r.entries ++ [e]) := by
    rw [Store.entries, List.append_assoc, List.append_assoc]
    exact List.perm_append_comm.append_left r.mem
  refine ⟨hist.add e hnumber htype, ⟨⟨?_, ?_, fun a ha b hb => ?_, hr.immNewer, hr.saved, ?_,
    fun f hf => ?_, hr.fileNumbers⟩, hnext.trans ?_⟩, ?_⟩
  · exact (hr.covers.append (Covers.of_mem_iff fun _ => Iff.rfl)).trans
      (.of_mem_iff fun _ => hentries.mem_iff)
  · refine hentries.nodup_iff.mpr (List.nodup_append.mpr ⟨hr.nodup, List.nodup_singleton e, ?_⟩)
    rintro a ha b hb rfl
    rw [List.mem_singleton.mp hb] at ha
    exact absurd (hnewest e ha) (Nat.lt_irrefl _)
  · rcases List.mem_append.mp hb with hb | hb
    · exact hr.memNewer a ha b hb
    · rw [List.mem_singleton.mp hb]
      exact hnewest a (List.mem_append_right _ ha)
  · exact hr.saved_le.trans (by simp [History.length, History.add])
  · exact List.Subset.trans (hr.leftovers f hf) (List.subset_append_left _ _)
  · simp [History.length, History.add]
  · simp [History.puts, History.add]

/-- Whatever the background thread does during a sequence of puts. -/
theorem Session.inv {usage : List Entry → Nat} {puts : List (Bytes × Bytes)}
    (hsession : Session usage puts s s') (h : OpenInv hist s)
    (hmax : hist.length + puts.length < kMaxSequenceNumber.toNat) :
    ∃ hist', OpenInv hist' s' ∧ hist'.puts = hist.puts ++ puts := by
  induction hsession generalizing hist with
  | done => exact ⟨hist, h, (List.append_nil _).symm⟩
  | background hstep _ ih => exact ih (hstep.inv h (by omega)) hmax
  | @put s s' t key value puts hput _ ih =>
    obtain ⟨hist₁, h₁, hputs₁⟩ := put_inv h hput
    have hlength : hist₁.length = hist.length + 1 := by
      have hlen := congrArg List.length hputs₁
      simpa [History.puts, History.length] using hlen
    obtain ⟨hist₂, h₂, hputs₂⟩ := ih h₁ (by rw [List.length_cons] at hmax; omega)
    refine ⟨hist₂, h₂, ?_⟩
    rw [hputs₂, hputs₁, List.append_assoc]
    rfl

/-! ## Closing and opening -/

theorem entries_subset_flatMap {f : TableFile} {files : List TableFile} (hf : f ∈ files) :
    f.entries ⊆ files.flatMap TableFile.entries := fun _ he => List.mem_flatMap.mpr ⟨f, hf, he⟩

/-- What is left behind holds copies of entries that are still in a log or a
table. -/
theorem Interrupted.entries_subset {flushed finished abandoned : List TableFile}
    (hleft : Interrupted s flushed finished abandoned) (h : OpenInv hist s)
    (hmax : hist.length < kMaxSequenceNumber.toNat) :
    ∀ f ∈ flushed ++ finished ++ abandoned, f.entries ⊆ s.entries := by
  intro f hf e he
  rcases List.mem_append.mp hf with hf | hf
  · rcases List.mem_append.mp hf with hf | hf
    · rcases hleft.memTable with hnil | hbuild
      · rw [hnil] at hf
        cases hf
      · have hperm := perm_of_buildTable hbuild
        rw [flatten_level0] at hperm
        exact List.mem_append_right _ (List.mem_append_left _
          (hperm.subset (entries_subset_flatMap hf he)))
    · obtain ⟨inputs, rest, kept, before, htables, hkept, hbefore, -, houtputs⟩ := hleft.outputs
      have hmem : e ∈ before := houtputs ▸ entries_subset_flatMap hf he
      have hinput := (Inv.compactionKeeps h hmax htables hkept).1.subset (hbefore.subset hmem)
      refine Inv.mem_entries_of_table ((htables.flatMap_right _).symm.subset ?_)
      rw [List.flatMap_append]
      exact List.mem_append_left _ hinput
  · rw [TableFile.entries, hleft.unfinished f hf] at he
    cases he

theorem Closes.inv (hclose : Closes s s') (h : OpenInv hist s)
    (hmax : hist.length < kMaxSequenceNumber.toNat) : Inv hist s' := by
  cases hclose with
  | @close flushed finished abandoned hleft =>
    refine ⟨h.covers, h.nodup, h.memNewer, h.immNewer, h.saved, h.saved_le, fun f hf e he => ?_, ?_⟩
    · rcases List.mem_append.mp hf with hf | hf
      · exact h.leftovers f hf he
      · exact h.mem_hist (hleft.entries_subset h hmax f hf he)
    · show ((s.tables ++ (s.leftovers ++ _)).map TableFile.fileNumber).Nodup
      rw [← List.append_assoc]
      exact hleft.newFiles

theorem toNat_ite_le_iff {a b : UInt64} {bound : Nat} :
    (if a < b then b else a).toNat ≤ bound ↔ a.toNat ≤ bound ∧ b.toNat ≤ bound := by
  split
  · next h =>
    have hlt := UInt64.lt_iff_toNat_lt.mp h
    omega
  · next h =>
    have hle := UInt64.le_iff_toNat_le.mp (UInt64.not_lt.mp h)
    omega

theorem foldl_maxSequence_le_iff {log : List Entry} {init : UInt64} {bound : Nat} :
    (log.foldl (fun m e => if e.key.sequence > m then e.key.sequence else m) init).toNat ≤ bound ↔
      init.toNat ≤ bound ∧ ∀ e ∈ log, e.number ≤ bound := by
  induction log generalizing init with
  | nil => simp
  | cons e log ih =>
    rw [List.foldl_cons, ih, toNat_ite_le_iff, List.forall_mem_cons, and_assoc]
    rfl

theorem recoveredSequence_le_iff {bound : Nat} :
    s.recoveredSequence.toNat ≤ bound ↔
      s.savedSequence.toNat ≤ bound ∧ ∀ e ∈ s.immEntries ++ s.mem, e.number ≤ bound := by
  rw [Store.recoveredSequence, toNat_ite_le_iff, Store.maxSequence, foldl_maxSequence_le_iff]
  simp

/-- Opening finds the sequence number of the last put again, in the descriptor or
in a log. -/
theorem Inv.recoveredSequence (h : Inv hist s) : s.recoveredSequence.toNat = hist.length := by
  have hlogs : ∀ e ∈ s.immEntries ++ s.mem, e ∈ s.entries := fun e he => by
    rcases List.mem_append.mp he with he | he
    · exact List.mem_append_right _ (List.mem_append_left _ he)
    · exact List.mem_append_left _ he
  refine Nat.le_antisymm ?_ ?_
  · exact recoveredSequence_le_iff.mpr ⟨h.saved_le, fun e he => h.number_le (hlogs e he)⟩
  · obtain ⟨hsaved, hmax⟩ := recoveredSequence_le_iff.mp (Nat.le_refl s.recoveredSequence.toNat)
    rcases Nat.eq_zero_or_pos hist.length with hzero | hpos
    · rw [hzero]
      exact Nat.zero_le _
    · -- the last entry is superseded by none, so it is still there
      have hlast : hist.length ∈ hist.entries.map Entry.number := by
        rw [hist.numbered, List.mem_range'_1]
        exact ⟨hpos, Nat.lt_one_add_iff.mpr (Nat.le_refl _)⟩
      obtain ⟨e, he, hnumber⟩ := List.mem_map.mp hlast
      obtain ⟨e', he', -, hle⟩ := h.covers.newer e he
      rw [← hnumber]
      refine hle.trans ?_
      rcases List.mem_append.mp he' with hmem | hrest
      · exact hmax e' (List.mem_append_right _ hmem)
      · rcases List.mem_append.mp hrest with himm | htable
        · exact hmax e' (List.mem_append_left _ himm)
        · exact (h.saved e' htable).trans hsaved

theorem Opens.inv {usage : List Entry → Nat} (hopen : Opens usage s s') (h : Inv hist s) :
    OpenInv hist s' := by
  cases hopen with
  | @recover files hbuild hnew =>
    have hfiles : (files.flatMap TableFile.entries).Perm (s.immEntries ++ s.mem) := by
      have hperm := perm_of_buildTable hbuild
      rwa [flatten_recovered] at hperm
    have hentries : ((s.tables ++ files).flatMap TableFile.entries).Perm s.entries := by
      rw [List.flatMap_append, Store.entries]
      exact (List.perm_append_comm.trans (hfiles.append_right _)).trans
        ((List.perm_append_comm.append_right _).trans (List.Perm.of_eq (List.append_assoc _ _ _)))
    have hsaved := h.recoveredSequence
    refine ⟨⟨h.covers.trans (.of_mem_iff fun e => hentries.mem_iff),
      hentries.nodup_iff.mpr h.nodup, fun a _ b hb => (by cases hb), fun a _ b hb => (by cases hb),
      fun a ha => ?_, hsaved.le, fun f hf => (by cases hf), ?_⟩, hsaved⟩
    · show a.number ≤ s.recoveredSequence.toNat
      rw [hsaved]
      exact h.number_le (hentries.subset ha)
    · show ((s.tables ++ files ++ []).map TableFile.fileNumber).Nodup
      rw [List.append_nil]
      exact hnew

end Steps

/-! ## Reading -/

/-- The value that was put last under a key. -/
def lastPut (puts : List (Bytes × Bytes)) (key : Bytes) : Option Bytes :=
  (puts.reverse.find? fun p => p.1 = key).map Prod.snd

section Reading
variable {hist : History} {s s' : Store}

theorem History.newest?_eq (hist : History) (key : Bytes) :
    (Store.newest? key hist.entries).map Entry.value = lastPut hist.puts key := by
  rw [Store.newest?, newest?_eq_find? hist.increasing, lastPut, History.puts, ← List.map_reverse,
    List.find?_map, Option.map_map]
  rfl

theorem Inv.newest?_entries (h : Inv hist s) (key : Bytes) :
    Store.newest? key s.entries = Store.newest? key hist.entries :=
  h.covers.newest?_eq hist.injOn key

/-- `get` returns the value that was put last. -/
theorem Inv.get_eq (h : Inv hist s) (key : Bytes) : s.get key = lastPut hist.puts key := by
  have hinj := h.injOn
  have hinj' : Set.InjOn Entry.number {e | e ∈ s.immEntries ++ s.tableEntries} :=
    hinj.mono fun e he => List.mem_append_right _ he
  rw [Store.get, Store.newest?, Store.newest?, Store.newest?, ← newest?_append hinj' h.immNewer key,
    ← newest?_append hinj h.memNewer key, ← hist.newest?_eq, ← h.newest?_entries]
  rfl

/-- Opening the database again changes no value. -/
theorem Opens.get_eq {usage : List Entry → Nat} (hopen : Opens usage s s') (h : Inv hist s)
    (key : Bytes) : s'.get key = s.get key := by
  rw [(hopen.inv h).get_eq, h.get_eq]

end Reading

end BloomHierarchy
