import BloomHierarchy.Crc32c
import BloomHierarchy.Table

/-!
# What a table answers

The builder and the reader together, from the entries that are added to what a
caller of the reader sees. Results:

1. `table_moves`: after any sequence of `SeekToFirst`, `SeekToLast`, `Seek`,
   `Next` and `Prev` the iterator of a table stands where the same sequence leads
   to in the sorted list of the entries, and has no error;
2. `table_get`: `InternalGet` hands out at most the first entry that is not below
   its key, and always does so if that entry has the user key that was asked for.

`InternalGet` looks into one block only. Where its key lies between the last key
of that block and the key of the index it finds nothing, although the next block
begins with an entry that is not below. That such an entry never has the same
user key is a property of the separators (`InternalKey.separator_lt_of_user`).
-/

namespace BloomHierarchy

/-! ## Sizes -/

theorem BlockImage.length_points_le (img : BlockImage) :
    img.points.length ≤ img.items.length + 1 := by
  have hnodup : img.points.Nodup := img.increasing.imp Nat.ne_of_lt
  have hsub : img.points ⊆ List.range (img.items.length + 1) := by
    intro p hp
    exact List.mem_range.mpr (Nat.lt_succ_of_le (img.point_le hp))
  have hle := (hnodup.subperm hsub).length_le
  rwa [List.length_range] at hle

theorem BlockEntry.length_encode_le (e : BlockEntry) :
    e.encode.length ≤ e.key.length + e.value.length + 15 := by
  have hlen (v : UInt32) : (encodeVarint32 v).length ≤ 5 := by
    rw [encodeVarint32_eq]
    exact Varint.length_encode_le 4 _
  have h1 := hlen (UInt32.ofNat e.shared)
  have h2 := hlen (UInt32.ofNat (e.key.length - e.shared))
  have h3 := hlen (UInt32.ofNat e.value.length)
  simp only [encode, head, payload, List.length_append, List.length_drop]
  omega

/-- A bound on the size of entries, with `extra` bytes for each of them. -/
def entriesSize (extra : Nat) (entries : List (Bytes × Bytes)) : Nat :=
  (entries.map fun e => e.1.length + e.2.length + extra).sum

theorem entriesSize_append (extra : Nat) (a b : List (Bytes × Bytes)) :
    entriesSize extra (a ++ b) = entriesSize extra a + entriesSize extra b := by
  rw [entriesSize, List.map_append, List.sum_append]
  rfl

theorem le_entriesSize (extra : Nat) {entries : List (Bytes × Bytes)} {e : Bytes × Bytes}
    (he : e ∈ entries) : e.1.length + e.2.length + extra ≤ entriesSize extra entries :=
  List.le_sum_of_mem (List.mem_map_of_mem he)

theorem BlockImage.length_bytes_le (img : BlockImage) :
    img.bytes.length ≤ 8 + entriesSize 19 img.entries := by
  have hitems : ∀ items : List BlockEntry, (encodeAll items).length + 4 * items.length ≤
      entriesSize 19 (items.map fun e => (e.key, e.value)) := by
    intro items
    induction items with
    | nil => exact Nat.le_refl _
    | cons e items ih =>
      have he := e.length_encode_le
      simp only [encodeAll, entriesSize, List.flatMap_cons, List.length_append, List.length_cons,
        List.map_cons, List.sum_cons] at ih ⊢
      omega
  have h := hitems img.items
  have hpoints := img.length_points_le
  rw [length_bytes, offset_length, entries]
  omega

/-- A bound on the size of the blocks of a table with these entries. -/
def tableSize (entries : List (Bytes × Bytes)) : Nat :=
  8 + entriesSize 39 entries

theorem entriesSize_le_of_le {extra extra' : Nat} (h : extra ≤ extra')
    (entries : List (Bytes × Bytes)) :
    entriesSize extra entries ≤ entriesSize extra' entries := by
  induction entries with
  | nil => exact Nat.le_refl _
  | cons e entries ih =>
    simp only [entriesSize, List.map_cons, List.sum_cons] at ih ⊢
    omega

/-- A block with entries pays for its index entry. -/
theorem length_lastKeyOf_le {block : List (Bytes × Bytes)} (h : block ≠ []) :
    (lastKeyOf block).length + 39 ≤ entriesSize 39 block := by
  obtain ⟨before, last, rfl⟩ := (List.eq_nil_or_concat' block).resolve_left h
  have hlast : lastKeyOf (before ++ [last]) = last.1 := by simp [lastKeyOf]
  rw [hlast, entriesSize_append, entriesSize, entriesSize, List.map_singleton, List.sum_singleton]
  omega

theorem entriesSize_index_le (c : Comparator) {blocks : List (List (Bytes × Bytes))}
    (hne : ∀ block ∈ blocks, block ≠ []) (handles : List Bytes)
    (hhandles : ∀ handle ∈ handles, handle.length ≤ 20) :
    entriesSize 19 ((indexKeys c blocks).zip handles) ≤ entriesSize 39 blocks.flatten := by
  induction blocks generalizing handles with
  | nil => exact Nat.zero_le _
  | cons block rest ih =>
    have hblock := length_lastKeyOf_le (hne block (by simp))
    cases handles with
    | nil =>
      rw [List.zip_nil_right]
      exact Nat.zero_le _
    | cons handle handles =>
      have hhandle := hhandles handle (by simp)
      have ih := ih (fun b hb => hne b (List.mem_cons_of_mem _ hb)) handles
        fun b hb => hhandles b (List.mem_cons_of_mem _ hb)
      cases rest with
      | nil =>
        have hkey := c.length_successor_le (lastKeyOf block)
        simp only [indexKeys, entriesSize, List.zip_cons_cons, List.zip_nil_left, List.map_cons,
          List.map_nil, List.sum_cons, List.sum_nil, List.flatten_cons, List.flatten_nil,
          List.append_nil] at hblock ⊢
        omega
      | cons block' rest =>
        have hkey := c.length_separator_le (lastKeyOf block) (firstKeyOf block')
        rw [indexKeys, List.zip_cons_cons, List.flatten_cons, entriesSize_append]
        simp only [entriesSize, List.map_cons, List.sum_cons] at ih hblock ⊢
        omega

theorem TableImage.Describes.small {port : Port} {w : TableOptions} {img : TableImage}
    {file : Bytes} {entries : List (Bytes × Bytes)} (h : img.Describes port w file entries)
    (hfile : file.length < 2 ^ 32) (hentries : tableSize entries < 2 ^ 32) : img.Small file where
  file := hfile
  blocks := by
    intro p hp
    obtain ⟨before, after, hsplit⟩ := List.append_of_mem hp
    have hle := p.image.length_bytes_le
    have hmono := entriesSize_le_of_le (by decide : 19 ≤ 39) p.image.entries
    rw [tableSize, h.all, hsplit, List.flatMap_append, List.flatMap_cons, entriesSize_append,
      entriesSize_append] at hentries
    omega
  metaIndex := by
    have hle := img.metaIndex.image.length_bytes_le
    cases hpolicy : w.filterPolicy with
    | none =>
      rw [h.noFilter hpolicy] at hle
      exact Nat.lt_of_le_of_lt hle (by decide)
    | some policy =>
      obtain ⟨filters, front, -, -, -, hmeta, -⟩ := h.filter policy hpolicy
      have hhandle := BlockHandle.length_encodeTo_le (handleAt front (filters.finish policy))
      have hname := policy.length_name
      have hfilter : (ascii "filter.".toList).length = 7 := by decide
      rw [hmeta, entriesSize, List.map_singleton, List.sum_singleton, List.length_append,
        hfilter] at hle
      rw [BlockHandle.kMaxEncodedLength] at hhandle
      dsimp only at hle
      omega
  index := by
    have hle := img.index.image.length_bytes_le
    have hne : ∀ block ∈ img.blocks.map fun p => p.image.entries, block ≠ [] := by
      intro block hblock
      obtain ⟨p, hp, rfl⟩ := List.mem_map.mp hblock
      exact h.nonempty p hp
    have hindex := entriesSize_index_le w.comparator hne
      (TableBuilder.encodedHandles port w img.blocks) fun handle hhandle => by
        obtain ⟨p, -, rfl⟩ := List.mem_map.mp hhandle
        exact BlockHandle.length_encodeTo_le _
    rw [← h.indexEntries, ← List.flatMap_def, ← h.all] at hindex
    rw [tableSize] at hentries
    omega

/-! ## From the builder to the reader -/

section Built
variable {port : Port} {w : TableOptions} {outcomes : List (Option (Bytes × Nat))}
  {entries : List (Bytes × Bytes)}

/-- What `buildTable` has written can be opened, unless an error was reported. -/
theorem openTable_buildTable (hinterval : 1 ≤ w.blockRestartInterval)
    (hok : (buildTable port w outcomes entries).status = none)
    (hsize : tableSize entries < 2 ^ 32) (r : TableOptions) {file : RandomAccessFile}
    (hfile : file.contents = (buildTable port w outcomes entries).file.contents)
    (hlength : file.contents.length < 2 ^ 32) :
    ∃ (t : Table) (img : TableImage),
      Table.openTable port r file file.contents.length = .ok t ∧ t.options = r ∧
        t.Opened port w img entries := by
  have hadded : ((TableBuilder.new w { outcomes }).addAll port w entries).status = none :=
    TableBuilder.status_of_finish hok
  obtain ⟨placed, current, index, hbuilds⟩ :=
    (TableBuilder.builds_new port w outcomes).addAll hinterval hadded
  obtain ⟨img, hdescribes⟩ := TableBuilder.finish_written hinterval hbuilds hok
  rw [List.nil_append] at hdescribes
  have hdescribes : img.Describes port w file.contents entries := hfile ▸ hdescribes
  obtain ⟨t, hopen, hoptions, -, hopened⟩ :=
    Table.openTable_of_describes r hdescribes (hdescribes.small hlength hsize)
  exact ⟨t, img, hopen, hoptions, hopened⟩

/-- The iterator of a table follows every sequence of moves. -/
theorem table_moves (hinterval : 1 ≤ w.blockRestartInterval)
    (hok : (buildTable port w outcomes entries).status = none)
    (hsize : tableSize entries < 2 ^ 32)
    (hsorted : Cursor.Sorted w.comparator.compare entries) {r : TableOptions}
    (hcomparator : r.comparator = w.comparator) {file : RandomAccessFile}
    (hfile : file.contents = (buildTable port w outcomes entries).file.contents)
    (hlength : file.contents.length < 2 ^ 32) (verifyChecksums : Bool)
    (moves : List (Cursor.Move Bytes)) :
    ∃ t, Table.openTable port r file file.contents.length = .ok t ∧
      (t.ops port verifyChecksums).current?
          (moves.foldl (t.ops port verifyChecksums).move t.newIterator) =
        entries[moves.foldl (Cursor.moveTo w.comparator.compare entries) entries.length]? ∧
      (t.ops port verifyChecksums).status
        (moves.foldl (t.ops port verifyChecksums).move t.newIterator) = none := by
  obtain ⟨t, img, hopen, hoptions, hopened⟩ :=
    openTable_buildTable hinterval hok hsize r hfile hlength
  have hsim := hopened.simulates verifyChecksums
  have hseeks := hopened.seeks (by rw [hoptions, hcomparator]) hsorted verifyChecksums
  have hstands := hsim.moves hseeks hopened.newIterator moves
  exact ⟨t, hopen, hsim.current?_eq hstands, hsim.status hstands⟩

end Built

namespace SmallTable

def port : Port := .withoutLibraries

/-- Every entry fills a block. -/
def options : TableOptions where
  comparator := internalKeyComparator bytewiseComparator
  blockSize := 1
  blockRestartInterval := 16
  compression := .snappy
  filterPolicy := some (internalFilterPolicy (bloomFilterPolicy (.new 10)))

def key (user : UInt8) (number : UInt64) : Bytes :=
  putFixed64 [user] number

/-- The user key `b` has two versions, in two blocks. -/
def entries : List (Bytes × Bytes) :=
  [(key 97 513, [1]), (key 98 769, [2]), (key 98 257, [3])]

def file : RandomAccessFile where
  filename := []
  contents := (buildTable port options [] entries).file.contents
  mapped := true

theorem built : (buildTable port options [] entries).status = none := by decide +kernel

theorem size_lt : tableSize entries < 2 ^ 32 := by decide +kernel

theorem length_lt : file.contents.length < 2 ^ 32 := by decide +kernel

theorem sorted : Cursor.Sorted options.comparator.compare entries := by
  unfold Cursor.Sorted
  decide +kernel

end SmallTable

/-- A search between both versions, and one step back. -/
theorem table_moves_smallTable :
    ∃ t, Table.openTable SmallTable.port SmallTable.options SmallTable.file
        SmallTable.file.contents.length = .ok t ∧
      (t.ops SmallTable.port true).current?
          ([.seek (SmallTable.key 98 600), .prev].foldl (t.ops SmallTable.port true).move
            t.newIterator) = some (SmallTable.key 98 769, [2]) ∧
      (t.ops SmallTable.port true).status
        ([.seek (SmallTable.key 98 600), .prev].foldl (t.ops SmallTable.port true).move
          t.newIterator) = none := by
  have hposition : SmallTable.entries[[Cursor.Move.seek (SmallTable.key 98 600), .prev].foldl
      (Cursor.moveTo SmallTable.options.comparator.compare SmallTable.entries)
      SmallTable.entries.length]? = some (SmallTable.key 98 769, [2]) := by decide +kernel
  rw [← hposition]
  exact table_moves (by decide) SmallTable.built SmallTable.size_lt SmallTable.sorted rfl rfl
    SmallTable.length_lt true _

/-! ## One lookup -/

/-- A separator is below every key that has the user key of the limit and is above the
start. -/
theorem InternalKey.separator_lt_of_user (user : Comparator) {start limit k : Bytes}
    (hk : compareKeys user start k = .lt) (huser : extractUserKey k = extractUserKey limit) :
    compareKeys user (findShortestSeparator user start limit) k = .lt := by
  unfold findShortestSeparator
  dsimp only
  split
  next h =>
    refine compareKeys_of_lt user ?_
    rw [extractUserKey_tackOn, huser]
    exact user.separator_lt (user_lt_of_shortened user h.1)
  next => exact hk

theorem getElem_indexKeys (c : Comparator) {blocks : List (List (Bytes × Bytes))} {j : Nat}
    (hj : j < (indexKeys c blocks).length) (hnext : j + 1 < blocks.length) :
    (indexKeys c blocks)[j] =
      c.findShortestSeparator (lastKeyOf blocks[j]) (firstKeyOf blocks[j + 1]) := by
  fun_induction indexKeys c blocks generalizing j with
  | case1 block block' blocks ih =>
    cases j with
    | zero => rfl
    | succ j => exact ih (by simpa using hj) (by simpa using hnext)
  | case2 => simp at hnext
  | case3 => simp at hnext

namespace Table

variable {port : Port} {w : TableOptions} {img : TableImage} {entries : List (Bytes × Bytes)}
  {t : Table}

/-- The index has an entry for each block, in order. -/
theorem Opened.length_index (h : t.Opened port w img entries) :
    img.index.image.entries.length = img.blocks.length := by
  rw [h.describes.indexEntries, List.length_zip, length_indexKeys, TableBuilder.encodedHandles,
    List.length_map, List.length_map, Nat.min_self]

theorem Opened.index_handle (h : t.Opened port w img entries) {j : Nat}
    (hj : j < img.index.image.entries.length) (hj' : j < img.blocks.length) :
    img.index.image.entries[j].2 = (img.blocks[j].handle port w.compression).encodeTo [] := by
  simp only [h.describes.indexEntries, List.getElem_zip, TableBuilder.encodedHandles,
    List.getElem_map]

theorem Opened.index_key (h : t.Opened port w img entries) {j : Nat}
    (hj : j < img.index.image.entries.length) (hnext : j + 1 < img.blocks.length) :
    img.index.image.entries[j].1 = w.comparator.findShortestSeparator
      (lastKeyOf img.blocks[j].image.entries) (firstKeyOf img.blocks[j + 1].image.entries) := by
  have hkeys : j < (indexKeys w.comparator (img.blocks.map fun p => p.image.entries)).length := by
    rw [length_indexKeys, List.length_map]
    omega
  have hmap : j + 1 < (img.blocks.map fun p => p.image.entries).length := by
    rwa [List.length_map]
  have hkey := getElem_indexKeys w.comparator hkeys hmap
  simp only [List.getElem_map] at hkey
  simp only [h.describes.indexEntries, List.getElem_zip]
  exact hkey

section Get
variable (h : t.Opened port w img entries) (hcomparator : t.options.comparator = w.comparator)
  (hsorted : Cursor.Sorted w.comparator.compare entries)
include h hcomparator hsorted

theorem Opened.seek_index (k : Bytes) :
    BlockIterator.Stands img.index.image (t.blockOps.seek k t.indexBlock.newIterator)
      (Cursor.lowerBound w.comparator.compare k img.index.image.entries) := by
  rw [blockOps, hcomparator, h.indexBlock]
  exact BlockIterator.seeks h.small.index (h.sorted_index hsorted) k
    (BlockImage.newIterator h.small.index)

/-- A key behind the index is behind all entries. -/
theorem Opened.internalGet_of_eq {k : Bytes} (verifyChecksums : Bool)
    (hj : Cursor.lowerBound w.comparator.compare k img.index.image.entries =
      img.index.image.entries.length) :
    t.internalGet port verifyChecksums k = (none, none) := by
  have hstands := h.seek_index hcomparator hsorted k
  have hsim := (h.levels verifyChecksums).index
  have hinvalid : ¬ t.blockOps.valid (t.blockOps.seek k t.indexBlock.newIterator) = true := by
    rw [hsim.valid hstands, hj]
    exact Nat.lt_irrefl _
  unfold internalGet
  dsimp only
  rw [if_neg hinvalid, hsim.status hstands]

/-- Otherwise the answer comes from the block that the index names. -/
theorem Opened.internalGet_of_lt {k : Bytes} (verifyChecksums : Bool) {j : Nat}
    (hj : Cursor.lowerBound w.comparator.compare k img.index.image.entries = j)
    (hlt : j < img.blocks.length) :
    t.internalGet port verifyChecksums k =
      (if t.filteredOut ((img.blocks[j].handle port w.compression).encodeTo []) k then none
        else img.blocks[j].image.entries[Cursor.lowerBound w.comparator.compare k
          img.blocks[j].image.entries]?, none) := by
  have hmem := List.getElem_mem hlt
  have hlt' : j < img.index.image.entries.length := by rwa [h.length_index]
  have hstands := h.seek_index hcomparator hsorted k
  rw [hj] at hstands
  have hsim := (h.levels verifyChecksums).index
  have hvalue : t.blockOps.value (t.blockOps.seek k t.indexBlock.newIterator) =
      (img.blocks[j].handle port w.compression).encodeTo [] :=
    (congrArg Prod.snd (hsim.entry hstands hlt')).trans (h.index_handle hlt' hlt)
  have hblock : BlockIterator.Stands img.blocks[j].image
      (t.blockOps.seek k (Block.ofContents img.blocks[j].image.bytes).newIterator)
      (Cursor.lowerBound w.comparator.compare k img.blocks[j].image.entries) := by
    rw [blockOps, hcomparator]
    exact BlockIterator.seeks (h.small.blocks _ hmem) (sorted_block h.describes hsorted hmem) k
      (BlockImage.newIterator (h.small.blocks _ hmem))
  have hdata : Cursor.Simulates t.blockOps img.blocks[j].image.entries
      (BlockIterator.Stands img.blocks[j].image) :=
    BlockIterator.simulates (h.small.blocks _ hmem) _
  unfold internalGet
  dsimp only
  rw [if_pos ((hsim.valid hstands).mpr hlt'), hvalue, hsim.status hstands,
    blockReader_handle h verifyChecksums hmem, hdata.current?_eq hblock, hdata.status hblock]
  split
  next => rfl
  next => rfl

omit hcomparator in
/-- The position of a key among all entries, by its block. -/
theorem Opened.lowerBound_block {k : Bytes} {j : Nat}
    (hj : Cursor.lowerBound w.comparator.compare k img.index.image.entries = j)
    (hlt : j < img.blocks.length) :
    Cursor.lowerBound w.comparator.compare k entries =
      Cursor.start (fun p : Placed => p.image.entries) img.blocks j +
        Cursor.lowerBound w.comparator.compare k img.blocks[j].image.entries := by
  have hlt' : j < img.index.image.entries.length := by rwa [h.length_index]
  have hflat := Cursor.lowerBound_flatMap (h.separated hsorted) k (by rwa [hj])
  have hall := concatenated_index h.describes h.small
  rw [TwoLevelIterator.concatenated] at hall
  have hcontents : contentsAt port w img img.index.image.entries[j].2 =
      img.blocks[j].image.entries := by
    rw [h.index_handle hlt' hlt]
    exact contentsAt_handle h.describes h.small (List.getElem_mem hlt)
  simp only [hj] at hflat
  rw [hall, hcontents, Cursor.start_congr (map_contentsAt h.describes h.small)] at hflat
  exact hflat

/-- An entry that is handed out is the first one that is not below the key. -/
theorem Opened.get_sound {k : Bytes} {verifyChecksums : Bool} {e : Bytes × Bytes}
    (hget : (t.internalGet port verifyChecksums k).1 = some e) :
    entries[Cursor.lowerBound w.comparator.compare k entries]? = some e := by
  generalize hj : Cursor.lowerBound w.comparator.compare k img.index.image.entries = j
  have hle : j ≤ img.blocks.length := by
    rw [← h.length_index, ← hj]
    exact Cursor.lowerBound_le
  rcases Nat.lt_or_eq_of_le hle with hlt | hend
  · rw [h.internalGet_of_lt hcomparator hsorted verifyChecksums hj hlt] at hget
    dsimp only at hget
    split at hget
    next => cases hget
    next =>
      obtain ⟨hin, hentry⟩ := List.getElem?_eq_some_iff.mp hget
      rw [h.lowerBound_block hsorted hj hlt, h.describes.all]
      have hlt'' := Cursor.start_add_lt (f := fun p : Placed => p.image.entries) hlt hin
      rw [List.getElem?_eq_getElem hlt'', Cursor.getElem_start_add hlt hin hlt'', hentry]
  · rw [h.internalGet_of_eq hcomparator hsorted verifyChecksums
      (by rw [hj, hend, h.length_index])] at hget
    cases hget

end Get

/-- The filters keep a key if the block has an entry with its user key. -/
theorem Opened.not_filteredOut {userPolicy : Option FilterPolicy}
    (h : t.Opened port w img entries) (hreader : t.options.filterPolicy = w.filterPolicy)
    (hwriter : w.filterPolicy = userPolicy.map internalFilterPolicy) {p : Placed}
    (hp : p ∈ img.blocks) {e : Bytes × Bytes} (he : e ∈ p.image.entries) {k : Bytes}
    (huser : extractUserKey e.1 = extractUserKey k) :
    t.filteredOut ((p.handle port w.compression).encodeTo []) k = false := by
  unfold filteredOut
  rw [← List.append_nil (BlockHandle.encodeTo _ _), BlockHandle.decodeFrom_append]
  cases userPolicy with
  | none => rw [hreader, hwriter]; rfl
  | some policy =>
    have hpolicy : w.filterPolicy = some (internalFilterPolicy policy) := hwriter
    obtain ⟨filters, groups, added, hfilter, hsmall, hwrites, hadded⟩ :=
      h.hasFilter _ (hreader.trans hpolicy) hpolicy
    obtain ⟨group, hgroup, hread⟩ := hwrites.keyMayMatch hsmall (hadded p hp e he)
    have hoffset : (p.handle port w.compression).offset.toNat = p.front.length := by
      obtain ⟨rest, hfile⟩ := h.describes.blocks p hp
      refine UInt64.toNat_ofNat_of_lt' (Nat.lt_of_le_of_lt ?_ (h.small.file.trans (by decide)))
      rw [hfile, List.length_append]
      exact Nat.le_add_right _ _
    have hmatch : (internalFilterPolicy policy).keyMayMatch k
        ((internalFilterPolicy policy).createFilter group) = true := by
      have hmem : extractUserKey k ∈ group.map extractUserKey := by
        rw [← huser]
        exact List.mem_map_of_mem (hgroup e.1 (hadded p hp e he))
      exact policy.mayMatch_of_mem hmem
    rw [hreader, hpolicy, hfilter]
    show (!FilterBlockReader.keyMayMatch _ _ (p.handle port w.compression).offset.toNat k) = false
    rw [hoffset, hread, hmatch]
    rfl

/-- If the first entry that is not below the key has its user key, it is in the block that the
index names, and not at the beginning of the next one. -/
theorem Opened.found_in_block {user : Comparator} (h : t.Opened port w img entries)
    (hsorted : Cursor.Sorted w.comparator.compare entries)
    (hinternal : w.comparator = internalKeyComparator user) {k : Bytes} {j : Nat}
    (hj : Cursor.lowerBound w.comparator.compare k img.index.image.entries = j)
    (hlt : j < img.blocks.length) {e : Bytes × Bytes}
    (hfound : entries[Cursor.lowerBound w.comparator.compare k entries]? = some e)
    (huser : extractUserKey e.1 = extractUserKey k) :
    Cursor.lowerBound w.comparator.compare k img.blocks[j].image.entries <
      img.blocks[j].image.entries.length := by
  by_contra hout
  have hbelow := Nat.le_antisymm Cursor.lowerBound_le (Nat.le_of_not_lt hout)
  have hlt' : j < img.index.image.entries.length := by rwa [h.length_index]
  have hposition := h.lowerBound_block hsorted hj hlt
  rw [hbelow, ← Cursor.start_succ (f := fun p : Placed => p.image.entries) hlt] at hposition
  rw [hposition, h.describes.all] at hfound
  obtain ⟨hin, hentry⟩ := List.getElem?_eq_some_iff.mp hfound
  -- there is a next block, and it begins with the entry
  have hnext : j + 1 < img.blocks.length := by
    by_contra hlast
    have hend : j + 1 = img.blocks.length := by omega
    rw [hend, Cursor.start_length] at hin
    exact Nat.lt_irrefl _ hin
  have hne := h.describes.nonempty _ (List.getElem_mem hnext)
  have hpos := List.length_pos_iff.mpr hne
  have hfirst : firstKeyOf img.blocks[j + 1].image.entries = e.1 := by
    have hzero := Cursor.getElem_start_add (f := fun p : Placed => p.image.entries) hnext hpos hin
    rw [firstKeyOf, List.head?_eq_getElem?, List.getElem?_eq_getElem hpos, ← hentry]
    exact congrArg Prod.fst hzero.symm
  -- so the key of the index is below the key that was asked for
  have hlast : w.comparator.compare (lastKeyOf img.blocks[j].image.entries) k = .lt := by
    obtain ⟨last, hmem, hkey⟩ := lastKeyOf_mem (h.describes.nonempty _ (List.getElem_mem hlt))
    obtain ⟨i, hi, rfl⟩ := List.getElem_of_mem hmem
    rw [hkey]
    exact Cursor.lt_of_lt_lowerBound (by rwa [hbelow]) hi
  have hkey : w.comparator.compare img.index.image.entries[j].1 k = .lt := by
    rw [h.index_key hlt' hnext, hfirst]
    rw [hinternal] at hlast ⊢
    exact InternalKey.separator_lt_of_user user hlast huser.symm
  exact Cursor.not_lt_of_lowerBound hj hlt' hkey

/-- The first entry that is not below the key is handed out if it has the same user key. -/
theorem Opened.get_complete {user : Comparator} {userPolicy : Option FilterPolicy}
    (h : t.Opened port w img entries) (hcomparator : t.options.comparator = w.comparator)
    (hsorted : Cursor.Sorted w.comparator.compare entries)
    (hinternal : w.comparator = internalKeyComparator user)
    (hreader : t.options.filterPolicy = w.filterPolicy)
    (hwriter : w.filterPolicy = userPolicy.map internalFilterPolicy) {k : Bytes}
    (verifyChecksums : Bool) {e : Bytes × Bytes}
    (hfound : entries[Cursor.lowerBound w.comparator.compare k entries]? = some e)
    (huser : extractUserKey e.1 = extractUserKey k) :
    (t.internalGet port verifyChecksums k).1 = some e := by
  generalize hj : Cursor.lowerBound w.comparator.compare k img.index.image.entries = j
  have hle : j ≤ img.blocks.length := by
    rw [← h.length_index, ← hj]
    exact Cursor.lowerBound_le
  rcases Nat.lt_or_eq_of_le hle with hlt | hend
  · have hinside := h.found_in_block hsorted hinternal hj hlt hfound huser
    have hentry : img.blocks[j].image.entries[Cursor.lowerBound w.comparator.compare k
        img.blocks[j].image.entries] = e := by
      have hin := Cursor.start_add_lt (f := fun p : Placed => p.image.entries) hlt hinside
      rw [h.lowerBound_block hsorted hj hlt, h.describes.all, List.getElem?_eq_getElem hin,
        Cursor.getElem_start_add hlt hinside hin] at hfound
      exact Option.some.inj hfound
    have hmem : e ∈ img.blocks[j].image.entries := by
      rw [← hentry]
      exact List.getElem_mem hinside
    have hkept := h.not_filteredOut hreader hwriter (List.getElem_mem hlt) hmem huser
    rw [h.internalGet_of_lt hcomparator hsorted verifyChecksums hj hlt, hkept,
      List.getElem?_eq_getElem hinside, hentry]
    rfl
  · have hall := concatenated_index h.describes h.small
    have hbehind := Cursor.lowerBound_flatMap_of_eq (h.separated hsorted) k
      (by rw [hj, hend, h.length_index])
    rw [TwoLevelIterator.concatenated] at hall
    rw [hall] at hbehind
    rw [hbehind, List.getElem?_eq_none (Nat.le_refl _)] at hfound
    cases hfound

theorem Opened.get_status (h : t.Opened port w img entries)
    (hcomparator : t.options.comparator = w.comparator)
    (hsorted : Cursor.Sorted w.comparator.compare entries) (verifyChecksums : Bool) (k : Bytes) :
    (t.internalGet port verifyChecksums k).2 = none := by
  generalize hj : Cursor.lowerBound w.comparator.compare k img.index.image.entries = j
  have hle : j ≤ img.blocks.length := by
    rw [← h.length_index, ← hj]
    exact Cursor.lowerBound_le
  rcases Nat.lt_or_eq_of_le hle with hlt | hend
  · rw [h.internalGet_of_lt hcomparator hsorted verifyChecksums hj hlt]
  · rw [h.internalGet_of_eq hcomparator hsorted verifyChecksums
      (by rw [hj, hend, h.length_index])]

end Table

/-- A lookup in a table of internal keys. It hands out nothing but the first entry that is not
below its key, and that one if it has the user key; the filters never hide it. -/
theorem table_get {port : Port} {w : TableOptions} {outcomes : List (Option (Bytes × Nat))}
    {entries : List (Bytes × Bytes)} {user : Comparator} {userPolicy : Option FilterPolicy}
    (hinternal : w.comparator = internalKeyComparator user)
    (hwriter : w.filterPolicy = userPolicy.map internalFilterPolicy)
    (hinterval : 1 ≤ w.blockRestartInterval)
    (hok : (buildTable port w outcomes entries).status = none)
    (hsize : tableSize entries < 2 ^ 32)
    (hsorted : Cursor.Sorted w.comparator.compare entries) {file : RandomAccessFile}
    (hfile : file.contents = (buildTable port w outcomes entries).file.contents)
    (hlength : file.contents.length < 2 ^ 32) (verifyChecksums : Bool) (k : Bytes) :
    ∃ t, Table.openTable port w file file.contents.length = .ok t ∧
      (t.internalGet port verifyChecksums k).2 = none ∧
      (∀ e, (t.internalGet port verifyChecksums k).1 = some e →
        entries[Cursor.lowerBound w.comparator.compare k entries]? = some e) ∧
      ∀ e, entries[Cursor.lowerBound w.comparator.compare k entries]? = some e →
        extractUserKey e.1 = extractUserKey k →
          (t.internalGet port verifyChecksums k).1 = some e := by
  obtain ⟨t, img, hopen, hoptions, hopened⟩ :=
    openTable_buildTable hinterval hok hsize w hfile hlength
  have hcomparator : t.options.comparator = w.comparator := by rw [hoptions]
  have hreader : t.options.filterPolicy = w.filterPolicy := by rw [hoptions]
  exact ⟨t, hopen, hopened.get_status hcomparator hsorted verifyChecksums k,
    fun e => hopened.get_sound hcomparator hsorted,
    fun e => hopened.get_complete hcomparator hsorted hinternal hreader hwriter verifyChecksums⟩

/-- The older version is found from a key between both. -/
theorem table_get_smallTable :
    ∃ t, Table.openTable SmallTable.port SmallTable.options SmallTable.file
        SmallTable.file.contents.length = .ok t ∧
      t.internalGet SmallTable.port true (SmallTable.key 98 600) =
        (some (SmallTable.key 98 257, [3]), none) := by
  have hwriter : SmallTable.options.filterPolicy =
      (some (bloomFilterPolicy (.new 10))).map internalFilterPolicy := rfl
  obtain ⟨t, hopen, hstatus, -, hfound⟩ := table_get rfl hwriter (by decide) SmallTable.built
    SmallTable.size_lt SmallTable.sorted rfl SmallTable.length_lt true (SmallTable.key 98 600)
  exact ⟨t, hopen, Prod.ext (hfound _ (by decide +kernel) (by decide +kernel)) hstatus⟩

end BloomHierarchy
