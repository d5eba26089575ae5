import BloomHierarchy.BlockCursor
import BloomHierarchy.TableImage
import BloomHierarchy.TwoLevelIterator

/-!
# Reading a table (`table/table`)

`Open` finds the index block and the filters by way of the footer. The iterator
of a table is a two-level iterator: its index iterator runs over the index block,
and `BlockReader` makes an iterator over the block that an index entry names.
A block that cannot be read gives an iterator with the error as its status.
Errors of the metaindex and the filter block are not reported: the table is then
used without filters. The block cache is left out; it keeps blocks that were read.

Results, for a file that `TableImage.Describes`:

1. `Table.openTable_of_describes`: it is opened, with its index and its filters;
2. `Table.Opened.simulates`: the iterator behaves as a position in the entries;
3. `Table.Opened.seeks`: if the keys increase, `Seek` finds the first entry that
   is not below its target, as the keys of the index separate the blocks
   (`separated_indexKeys`).
-/

namespace BloomHierarchy

structure Table where
  options : TableOptions
  file : RandomAccessFile
  indexBlock : Block
  filter : Option FilterBlockReader := none

namespace Table

section
variable (port : Port)

def readFilter (filterHandleValue : Bytes) (t : Table) : Table :=
  match BlockHandle.decodeFrom filterHandleValue with
  | .error _ => t
  | .ok (filterHandle, _) =>
    match readBlock port t.file t.options.paranoidChecks filterHandle with
    | .error _ => t
    | .ok block => { t with filter := some (.ofContents block) }

def readMeta (footer : Footer) (t : Table) : Table :=
  match t.options.filterPolicy with
  | none => t
  | some policy =>
    match readBlock port t.file t.options.paranoidChecks footer.metaindexHandle with
    | .error _ => t
    | .ok contents =>
      let ops := BlockIterator.ops bytewiseComparator.compare
      let key := ascii "filter.".toList ++ policy.name
      let iter := ops.seek key (Block.ofContents contents).newIterator
      if ops.valid iter ∧ ops.key iter = key then t.readFilter port (ops.value iter) else t

def openTable (options : TableOptions) (file : RandomAccessFile) (size : Nat) :
    Except Bytes Table :=
  if size < Footer.kEncodedLength then
    .error (corruption "file is too short to be an sstable")
  else
    match file.read (size - Footer.kEncodedLength) Footer.kEncodedLength with
    | .error s => .error s
    | .ok footerInput =>
      match Footer.decodeFrom footerInput with
      | .error s => .error s
      | .ok footer =>
        match readBlock port file options.paranoidChecks footer.indexHandle with
        | .error s => .error s
        | .ok contents =>
          let table : Table :=
            { options, file, indexBlock := Block.ofContents contents }
          .ok (table.readMeta port footer)

variable (verifyChecksums : Bool) (t : Table)

def blockReader (indexValue : Bytes) : BlockIterator :=
  match BlockHandle.decodeFrom indexValue with
  | .error s => .error s
  | .ok (handle, _) =>
    match readBlock port t.file verifyChecksums handle with
    | .error s => .error s
    | .ok contents => (Block.ofContents contents).newIterator

/-- The operations on the iterators of index and data blocks. -/
def blockOps : Cursor.Operations BlockIterator Bytes Bytes Bytes :=
  BlockIterator.ops t.options.comparator.compare

/-- The operations on the iterator of the table. An index has fewer entries than bytes. -/
def ops : Cursor.Operations (TwoLevelIterator BlockIterator BlockIterator) Bytes Bytes Bytes :=
  TwoLevelIterator.ops t.blockOps t.blockOps (t.blockReader port verifyChecksums)
    (t.indexBlock.size + 1)

def newIterator : TwoLevelIterator BlockIterator BlockIterator where
  indexIter := t.indexBlock.newIterator

/-- The filter of the block says that the key is not there. -/
def filteredOut (handleValue k : Bytes) : Bool :=
  match t.options.filterPolicy, t.filter, BlockHandle.decodeFrom handleValue with
  | some policy, some filter, .ok (handle, _) => !filter.keyMayMatch policy handle.offset.toNat k
  | _, _, _ => false

/-- What is handed to `handle_result`, and the status. -/
def internalGet (k : Bytes) : Option (Bytes × Bytes) × Option Bytes :=
  let iiter := t.blockOps.seek k t.indexBlock.newIterator
  if t.blockOps.valid iiter then
    if t.filteredOut (t.blockOps.value iiter) k then (none, t.blockOps.status iiter)
    else
      let blockIter := t.blockOps.seek k (t.blockReader port verifyChecksums (t.blockOps.value iiter))
      (t.blockOps.current? blockIter, (t.blockOps.status blockIter).or (t.blockOps.status iiter))
  else (none, t.blockOps.status iiter)

end

end Table

/-! ## The index separates the blocks -/

section Separators
variable {c : Comparator} {block : List (Bytes × Bytes)} {blocks : List (List (Bytes × Bytes))}

theorem Comparator.isLE_self (c : Comparator) (a : Bytes) : (c.compare a a).isLE = true := by
  have hself : c.compare a a = .eq := Std.ReflCmp.compare_self
  rw [hself]
  rfl

theorem Comparator.le_trans (c : Comparator) {a b d : Bytes} (h : (c.compare a b).isLE = true)
    (h' : c.compare b d ≠ .gt) : c.compare a d ≠ .gt :=
  Ordering.isLE_iff_ne_gt.mp (Std.TransCmp.isLE_trans h (Ordering.isLE_iff_ne_gt.mpr h'))

theorem compare_lastKeyOf (hsorted : Cursor.Sorted c.compare block) {e : Bytes × Bytes}
    (he : e ∈ block) : (c.compare e.1 (lastKeyOf block)).isLE = true := by
  obtain ⟨before, last, rfl⟩ := (List.eq_nil_or_concat' block).resolve_left
    (List.ne_nil_of_mem he)
  have hlast : lastKeyOf (before ++ [last]) = last.1 := by simp [lastKeyOf]
  rw [hlast]
  rcases List.mem_append.mp he with he | he
  · rw [(List.pairwise_append.mp hsorted).2.2 e he last (by simp)]
    rfl
  · rw [List.mem_singleton.mp he]
    exact c.isLE_self _

theorem compare_firstKeyOf (hsorted : Cursor.Sorted c.compare block) {e : Bytes × Bytes}
    (he : e ∈ block) : (c.compare (firstKeyOf block) e.1).isLE = true := by
  cases block with
  | nil => cases he
  | cons first rest =>
    show (c.compare first.1 e.1).isLE = true
    rcases List.mem_cons.mp he with rfl | he
    · exact c.isLE_self _
    · rw [(List.pairwise_cons.mp hsorted).1 e he]
      rfl

theorem lastKeyOf_mem (h : block ≠ []) : ∃ e ∈ block, lastKeyOf block = e.1 := by
  obtain ⟨before, last, rfl⟩ := (List.eq_nil_or_concat' block).resolve_left h
  exact ⟨last, by simp, by simp [lastKeyOf]⟩

theorem firstKeyOf_mem (h : block ≠ []) : ∃ e ∈ block, firstKeyOf block = e.1 := by
  cases block with
  | nil => exact absurd rfl h
  | cons first rest => exact ⟨first, by simp, rfl⟩

theorem length_indexKeys (c : Comparator) (blocks : List (List (Bytes × Bytes))) :
    (indexKeys c blocks).length = blocks.length := by
  fun_induction indexKeys c blocks with
  | case1 block block' blocks ih => simp [ih]
  | case2 => rfl
  | case3 => rfl

/-- The keys of the index, each with its block. -/
theorem separated_indexKeys (hne : ∀ block ∈ blocks, block ≠ [])
    (hsorted : Cursor.Sorted c.compare blocks.flatten) :
    Cursor.Separated c.compare ((indexKeys c blocks).zip blocks) id := by
  fun_induction indexKeys c blocks with
  | case1 block block' blocks ih =>
    obtain ⟨hblock, hrest, hcross⟩ := List.pairwise_append.mp hsorted
    have hblock' : block' ≠ [] := hne block' (by simp)
    obtain ⟨last, hlastMem, hlast⟩ := lastKeyOf_mem (hne block (by simp))
    obtain ⟨first, hfirstMem, hfirst⟩ := firstKeyOf_mem hblock'
    have hlt : c.compare (lastKeyOf block) (firstKeyOf block') = .lt := by
      rw [hlast, hfirst]
      exact hcross last hlastMem first (List.mem_flatten.mpr ⟨block', by simp, hfirstMem⟩)
    have htail := ih (fun b hb => hne b (List.mem_cons_of_mem _ hb)) hrest
    constructor
    · intro b hb e he
      rw [List.zip_cons_cons] at hb
      rcases List.mem_cons.mp hb with rfl | hb
      · exact c.le_trans (compare_lastKeyOf hblock he) (c.le_separator hlt)
      · exact htail.above b hb e he
    · rw [List.zip_cons_cons]
      refine List.pairwise_cons.mpr ⟨fun b' hb' e he => ?_, htail.below⟩
      have hmem : b'.2 ∈ block' :: blocks := (List.of_mem_zip hb').2
      have hfirstLe : (c.compare (firstKeyOf block') e.1).isLE = true := by
        have hle := compare_firstKeyOf hrest (List.mem_flatten.mpr ⟨b'.2, hmem, he⟩)
        rwa [List.flatten_cons, firstKeyOf_append hblock'] at hle
      exact Std.TransCmp.lt_of_lt_of_isLE (c.separator_lt hlt) hfirstLe
  | case2 block =>
    constructor
    · intro b hb e he
      rw [List.zip_cons_cons, List.zip_nil_left, List.mem_singleton] at hb
      subst hb
      have hblock : Cursor.Sorted c.compare block := by simpa using hsorted
      exact c.le_trans (compare_lastKeyOf hblock he) (c.le_successor _)
    · exact List.pairwise_singleton _ _
  | case3 => exact ⟨by simp, by simp⟩

end Separators

/-! ## Sizes

The offsets inside a block and a filter block are of 32 bits. -/

/-- The blocks and the file are smaller than 4 GiB. -/
structure TableImage.Small (img : TableImage) (file : Bytes) : Prop where
  file : file.length < 2 ^ 32
  blocks : ∀ p ∈ img.blocks, p.image.bytes.length < 2 ^ 32
  metaIndex : img.metaIndex.image.bytes.length < 2 ^ 32
  index : img.index.image.bytes.length < 2 ^ 32

/-! ## An open table -/

namespace Table

variable {port : Port} {w : TableOptions} {img : TableImage} {entries : List (Bytes × Bytes)}

/-- A table that was written with the options `w` and opened, maybe with others. The filters
are there if both have the same policy. -/
structure Opened (port : Port) (w : TableOptions) (t : Table) (img : TableImage)
    (entries : List (Bytes × Bytes)) : Prop where
  describes : img.Describes port w t.file.contents entries
  small : img.Small t.file.contents
  indexBlock : t.indexBlock = Block.ofContents img.index.image.bytes
  noFilter : t.options.filterPolicy = none ∨ w.filterPolicy = none → t.filter = none
  hasFilter : ∀ policy, t.options.filterPolicy = some policy → w.filterPolicy = some policy →
    ∃ filters groups added, t.filter = some (.ofContents (filters.finish policy)) ∧
      (filters.finish policy).length < 2 ^ 32 ∧
      FilterBlockBuilder.Writes policy filters groups added ∧
      ∀ p ∈ img.blocks, ∀ e ∈ p.image.entries, (p.front.length, e.1) ∈ added

theorem readBlock_placed {file : RandomAccessFile} {compression : CompressionType} {p : Placed}
    (h : p.InFile port compression file.contents) (hsmall : file.contents.length < 2 ^ 32)
    (verifyChecksums : Bool) :
    readBlock port file verifyChecksums (p.handle port compression) = .ok p.image.bytes := by
  obtain ⟨rest, hfile⟩ := h
  exact readBlock_blockBytes hfile (hsmall.trans (by decide)) verifyChecksums

theorem readFilter_eq (value : Bytes) (t : Table) :
    ∃ filter, t.readFilter port value = { t with filter } := by
  unfold readFilter
  split
  next => exact ⟨t.filter, rfl⟩
  next =>
    split
    next => exact ⟨t.filter, rfl⟩
    next => exact ⟨_, rfl⟩

theorem readMeta_eq (footer : Footer) (t : Table) :
    ∃ filter, t.readMeta port footer = { t with filter } := by
  unfold readMeta
  split
  next => exact ⟨t.filter, rfl⟩
  next =>
    split
    next => exact ⟨t.filter, rfl⟩
    next =>
      dsimp only
      split
      next => exact readFilter_eq _ t
      next => exact ⟨t.filter, rfl⟩

/-- A search in a metaindex block. -/
theorem seek_metaIndex {img : BlockImage} (hsmall : img.bytes.length < 2 ^ 32)
    (hone : img.entries.length ≤ 1) (key : Bytes) :
    (BlockIterator.ops bytewiseComparator.compare).current?
        ((BlockIterator.ops bytewiseComparator.compare).seek key
          (Block.ofContents img.bytes).newIterator) =
      img.entries[Cursor.lowerBound bytewiseComparator.compare key img.entries]? := by
  have hsorted : Cursor.Sorted bytewiseComparator.compare img.entries := by
    match img.entries, hone with
    | [], _ => exact List.Pairwise.nil
    | [_], _ => exact List.pairwise_singleton _ _
  exact (BlockIterator.simulates hsmall _).current?_eq
    (BlockIterator.seeks hsmall hsorted key (BlockImage.newIterator hsmall))

/-- A metaindex block without entries gives no filter. -/
theorem readMeta_of_none {footer : Footer} {t : Table}
    (h : img.Describes port w t.file.contents entries) (hsmall : img.Small t.file.contents)
    (hfooter : footer.metaindexHandle = img.metaIndex.handle port w.compression)
    (hnone : t.options.filterPolicy = none ∨ w.filterPolicy = none) (hfilter : t.filter = none) :
    (t.readMeta port footer).filter = none := by
  unfold readMeta
  split
  next => exact hfilter
  next policy hpolicy =>
    have hwriter := hnone.resolve_left (by rw [hpolicy]; simp)
    have hempty := h.noFilter hwriter
    rw [hfooter, readBlock_placed h.metaIndex hsmall.file]
    dsimp only
    have hseek := seek_metaIndex hsmall.metaIndex (by rw [hempty]; simp)
      (ascii "filter.".toList ++ policy.name)
    rw [hempty, List.getElem?_nil, Cursor.Operations.current?] at hseek
    split at hseek
    next => cases hseek
    next hinvalid =>
      rw [if_neg (fun hvalid => hinvalid hvalid.1)]
      exact hfilter

/-- The filter block is found under the name of its policy. -/
theorem readMeta_of_some {footer : Footer} {t : Table}
    (h : img.Describes port w t.file.contents entries) (hsmall : img.Small t.file.contents)
    (hfooter : footer.metaindexHandle = img.metaIndex.handle port w.compression)
    {policy : FilterPolicy} (hreader : t.options.filterPolicy = some policy)
    (hwriter : w.filterPolicy = some policy) :
    ∃ filters groups added,
      (t.readMeta port footer).filter = some (.ofContents (filters.finish policy)) ∧
      (filters.finish policy).length < 2 ^ 32 ∧
      FilterBlockBuilder.Writes policy filters groups added ∧
      ∀ p ∈ img.blocks, ∀ e ∈ p.image.entries, (p.front.length, e.1) ∈ added := by
  obtain ⟨filters, front, groups, added, ⟨rest, hfile⟩, hmeta, hwrites, hadded⟩ :=
    h.filter policy hwriter
  have hlen : (filters.finish policy).length < 2 ^ 32 := by
    have := hsmall.file
    rw [hfile, List.length_append, List.length_append, length_rawBlock] at this
    omega
  refine ⟨filters, groups, added, ?_, hlen, hwrites, hadded⟩
  have hread := readBlock_rawBlock hfile (hsmall.file.trans (by decide)) t.options.paranoidChecks
  have hseek := seek_metaIndex hsmall.metaIndex (by rw [hmeta]; simp)
    (ascii "filter.".toList ++ policy.name)
  have hfirst : Cursor.lowerBound bytewiseComparator.compare (ascii "filter.".toList ++ policy.name)
      img.metaIndex.image.entries = 0 := by
    rw [hmeta]
    refine Cursor.lowerBound_of_eq (List.pairwise_singleton _ _) Nat.zero_lt_one ?_
    exact Std.ReflCmp.compare_self
  rw [hfirst, hmeta, List.getElem?_cons_zero, Cursor.Operations.current?] at hseek
  split at hseek
  next hvalid =>
    injection hseek with hseek
    obtain ⟨hkey, hvalue⟩ := Prod.mk.inj hseek
    unfold readMeta
    rw [hreader]
    dsimp only
    rw [hfooter, readBlock_placed h.metaIndex hsmall.file]
    dsimp only
    rw [if_pos ⟨hvalid, hkey⟩, hvalue, readFilter, ← List.append_nil (BlockHandle.encodeTo _ _),
      BlockHandle.decodeFrom_append]
    dsimp only
    rw [hread]
  next => cases hseek

/-- A finished table can be opened. -/
theorem openTable_of_describes (r : TableOptions) {file : RandomAccessFile}
    (h : img.Describes port w file.contents entries) (hsmall : img.Small file.contents) :
    ∃ t : Table, openTable port r file file.contents.length = .ok t ∧ t.options = r ∧
      t.file = file ∧ Opened port w t img entries := by
  obtain ⟨front, hfile⟩ := h.footer
  have hfooterLength := Footer.length_encodeTo (img.footer port w)
  have hsize : file.contents.length = front.length + Footer.kEncodedLength := by
    rw [hfile, List.length_append, hfooterLength]
  have hread : file.read front.length Footer.kEncodedLength =
      .ok (img.footer port w).encodeTo := by
    rw [← hfooterLength]
    exact RandomAccessFile.read_eq (by rw [List.append_nil]; exact hfile)
  let t₀ : Table :=
    { options := r, file, indexBlock := Block.ofContents img.index.image.bytes }
  refine ⟨t₀.readMeta port (img.footer port w), ?_, ?_⟩
  · unfold openTable
    rw [hsize, if_neg (by omega), Nat.add_sub_cancel, hread]
    dsimp only
    rw [Footer.decodeFrom_encodeTo]
    dsimp only
    rw [show (img.footer port w).indexHandle = img.index.handle port w.compression from rfl,
      readBlock_placed h.index hsmall.file]
  · have hfooter : (img.footer port w).metaindexHandle =
        img.metaIndex.handle port w.compression := rfl
    have hmeta : ∃ filter, t₀.readMeta port (img.footer port w) = { t₀ with filter } :=
      readMeta_eq _ t₀
    have hnone := fun hpolicy => readMeta_of_none (t := t₀) h hsmall hfooter hpolicy rfl
    have hsome := fun (policy : FilterPolicy) (hreader : t₀.options.filterPolicy = some policy)
      (hwriter : w.filterPolicy = some policy) =>
        readMeta_of_some (t := t₀) h hsmall hfooter hreader hwriter
    obtain ⟨filter, hmeta⟩ := hmeta
    rw [hmeta] at hnone ⊢
    simp only [hmeta] at hsome
    exact ⟨rfl, rfl, h, hsmall, rfl, hnone, hsome⟩

/-! ## The iterator of a table -/

section Iterator
variable {t : Table}

/-- The block that a handle names. -/
def blockAt (port : Port) (w : TableOptions) (img : TableImage) (handle : Bytes) : Option Placed :=
  img.blocks.find? fun p => (p.handle port w.compression).encodeTo [] = handle

def contentsAt (port : Port) (w : TableOptions) (img : TableImage) (handle : Bytes) :
    List (Bytes × Bytes) :=
  ((blockAt port w img handle).map fun p => p.image.entries).getD []

def StandsAt (port : Port) (w : TableOptions) (img : TableImage) (handle : Bytes)
    (it : BlockIterator) (i : Nat) : Prop :=
  ∃ p, blockAt port w img handle = some p ∧ BlockIterator.Stands p.image it i

theorem blockAt_of_mem_index (h : img.Describes port w t.file.contents entries)
    {b : Bytes × Bytes} (hb : b ∈ img.index.image.entries) :
    ∃ p ∈ img.blocks, blockAt port w img b.2 = some p ∧
      (p.handle port w.compression).encodeTo [] = b.2 := by
  rw [h.indexEntries] at hb
  obtain ⟨p, hp, hhandle⟩ := List.mem_map.mp (List.of_mem_zip hb).2
  have hfound : (blockAt port w img b.2).isSome := by
    rw [blockAt, List.find?_isSome]
    exact ⟨p, hp, by simpa using hhandle⟩
  obtain ⟨p', hp'⟩ := Option.isSome_iff_exists.mp hfound
  exact ⟨p', List.mem_of_find?_eq_some hp', hp', by simpa using List.find?_some hp'⟩

/-- Two blocks under one handle have the same bytes, and so the same entries. -/
theorem contentsAt_handle (h : img.Describes port w t.file.contents entries)
    (hsmall : img.Small t.file.contents) {p : Placed} (hp : p ∈ img.blocks) :
    contentsAt port w img ((p.handle port w.compression).encodeTo []) = p.image.entries := by
  have hfound : (blockAt port w img ((p.handle port w.compression).encodeTo [])).isSome := by
    rw [blockAt, List.find?_isSome]
    exact ⟨p, hp, by simp⟩
  obtain ⟨p', hp'⟩ := Option.isSome_iff_exists.mp hfound
  have hmem := List.mem_of_find?_eq_some hp'
  have hsame : (p'.handle port w.compression).encodeTo [] =
      (p.handle port w.compression).encodeTo [] := by simpa using List.find?_some hp'
  have hread := readBlock_placed (h.blocks p' hmem) hsmall.file false
  rw [BlockHandle.encodeTo_injective hsame, readBlock_placed (h.blocks p hp) hsmall.file] at hread
  injection hread with hbytes
  rw [contentsAt, hp']
  exact (BlockImage.entries_of_bytes (hsmall.blocks p hp) hbytes).symm

/-- The blocks behind the handles of the index are the blocks in order. -/
theorem map_contentsAt (h : img.Describes port w t.file.contents entries)
    (hsmall : img.Small t.file.contents) :
    img.index.image.entries.map (fun b => contentsAt port w img b.2) =
      img.blocks.map fun p => p.image.entries := by
  have hlen : (TableBuilder.encodedHandles port w img.blocks).length ≤
      (indexKeys w.comparator (img.blocks.map fun p => p.image.entries)).length := by
    rw [length_indexKeys, TableBuilder.encodedHandles, List.length_map, List.length_map]
  have hsnd : img.index.image.entries.map (fun b => contentsAt port w img b.2) =
      (img.index.image.entries.map Prod.snd).map (contentsAt port w img) := by
    rw [List.map_map]
    rfl
  rw [hsnd, h.indexEntries, List.map_snd_zip hlen, TableBuilder.encodedHandles, List.map_map]
  exact List.map_congr_left fun p hp => contentsAt_handle h hsmall hp

theorem concatenated_index (h : img.Describes port w t.file.contents entries)
    (hsmall : img.Small t.file.contents) :
    TwoLevelIterator.concatenated img.index.image.entries (contentsAt port w img) = entries := by
  rw [TwoLevelIterator.concatenated, List.flatMap_def, map_contentsAt h hsmall,
    ← List.flatMap_def, ← h.all]

theorem blockReader_handle (h : Opened port w t img entries) (verifyChecksums : Bool) {p : Placed}
    (hp : p ∈ img.blocks) :
    t.blockReader port verifyChecksums ((p.handle port w.compression).encodeTo []) =
      (Block.ofContents p.image.bytes).newIterator := by
  unfold blockReader
  rw [← List.append_nil (BlockHandle.encodeTo _ _), BlockHandle.decodeFrom_append]
  dsimp only
  rw [readBlock_placed (h.describes.blocks p hp) h.small.file]

/-- The two levels of the iterator are what the two-level iterator is proved for. -/
theorem Opened.levels (h : Opened port w t img entries) (verifyChecksums : Bool) :
    TwoLevelIterator.Levels t.blockOps t.blockOps (t.blockReader port verifyChecksums)
      img.index.image.entries (contentsAt port w img) (BlockIterator.Stands img.index.image)
      (StandsAt port w img) where
  index := BlockIterator.simulates h.small.index _
  data := by
    intro b hb
    obtain ⟨p, hp, hblock, -⟩ := blockAt_of_mem_index h.describes hb
    have hsim := BlockIterator.simulates (h.small.blocks p hp) t.options.comparator.compare
    have hcontents : contentsAt port w img b.2 = p.image.entries := by
      rw [contentsAt, hblock]
      rfl
    have hstands : StandsAt port w img b.2 = BlockIterator.Stands p.image := by
      funext it i
      simp [StandsAt, hblock]
    rw [hcontents, hstands]
    exact hsim
  opens := by
    intro b hb
    obtain ⟨p, hp, hblock, hhandle⟩ := blockAt_of_mem_index h.describes hb
    refine ⟨p.image.items.length, p, hblock, ?_⟩
    rw [← hhandle, blockReader_handle h verifyChecksums hp]
    exact BlockImage.newIterator (h.small.blocks p hp)

theorem Opened.steps (h : Opened port w t img entries) :
    img.index.image.entries.length < t.indexBlock.size + 1 := by
  have hsize : t.indexBlock.size = img.index.image.bytes.length := by
    rw [h.indexBlock, BlockImage.ofContents_bytes h.small.index]
  have hlen := img.index.image.length_bytes
  have hoffset := img.index.image.le_offset (Nat.le_refl img.index.image.items.length)
  rw [hsize, BlockImage.length_entries]
  omega

/-- The states of the iterator and their positions among the entries. -/
def Stands (port : Port) (w : TableOptions) (img : TableImage) :
    TwoLevelIterator BlockIterator BlockIterator → Nat → Prop :=
  TwoLevelIterator.Stands img.index.image.entries (contentsAt port w img)
    (BlockIterator.Stands img.index.image) (StandsAt port w img)

theorem Opened.simulates (h : Opened port w t img entries) (verifyChecksums : Bool) :
    Cursor.Simulates (t.ops port verifyChecksums) entries (Stands port w img) := by
  have hsim := TwoLevelIterator.simulates (h.levels verifyChecksums) h.steps
  rwa [concatenated_index h.describes h.small] at hsim

/-- At first the iterator is not valid. -/
theorem Opened.newIterator (h : Opened port w t img entries) :
    Stands port w img t.newIterator entries.length := by
  have hindex := BlockImage.newIterator h.small.index
  rw [← h.indexBlock, ← BlockImage.length_entries] at hindex
  have hstands : Stands port w img t.newIterator
      (TwoLevelIterator.concatenated img.index.image.entries (contentsAt port w img)).length :=
    .none ⟨hindex, rfl, rfl⟩
  rwa [concatenated_index h.describes h.small] at hstands

/-- The keys of the index and the blocks behind their handles. -/
theorem Opened.separated (h : Opened port w t img entries)
    (hsorted : Cursor.Sorted w.comparator.compare entries) :
    Cursor.Separated w.comparator.compare img.index.image.entries (contentsAt port w img) := by
  have hkeys : Cursor.Separated w.comparator.compare
      ((indexKeys w.comparator (img.blocks.map fun p => p.image.entries)).zip
        (img.blocks.map fun p => p.image.entries)) id := by
    refine separated_indexKeys ?_ ?_
    · intro block hblock
      obtain ⟨p, hp, rfl⟩ := List.mem_map.mp hblock
      exact h.describes.nonempty p hp
    · rw [← List.flatMap_def, ← h.describes.all]
      exact hsorted
  have hmap : (indexKeys w.comparator (img.blocks.map fun p => p.image.entries)).zip
      (img.blocks.map fun p => p.image.entries) =
      img.index.image.entries.map fun b => (b.1, contentsAt port w img b.2) := by
    have hcontents : (img.blocks.map fun p => p.image.entries) =
        (TableBuilder.encodedHandles port w img.blocks).map (contentsAt port w img) := by
      rw [TableBuilder.encodedHandles, List.map_map]
      exact List.map_congr_left fun p hp => (contentsAt_handle h.describes h.small hp).symm
    rw [h.describes.indexEntries]
    nth_rewrite 2 [hcontents]
    rw [List.zip_map_right]
    rfl
  rw [hmap] at hkeys
  refine Cursor.Separated.of_map ?_ ?_ hkeys
  · exact fun _ _ => rfl
  · exact fun _ _ => rfl

theorem Opened.sorted_index (h : Opened port w t img entries)
    (hsorted : Cursor.Sorted w.comparator.compare entries) :
    Cursor.Sorted w.comparator.compare img.index.image.entries := by
  refine (h.separated hsorted).sorted fun b hb => ?_
  obtain ⟨p, hp, hblock, -⟩ := blockAt_of_mem_index h.describes hb
  rw [contentsAt, hblock]
  exact h.describes.nonempty p hp

theorem sorted_block (h : img.Describes port w t.file.contents entries)
    (hsorted : Cursor.Sorted w.comparator.compare entries) {p : Placed} (hp : p ∈ img.blocks) :
    Cursor.Sorted w.comparator.compare p.image.entries := by
  rw [h.all] at hsorted
  exact (List.pairwise_flatMap.mp hsorted).1 p hp

theorem Opened.seeks (h : Opened port w t img entries)
    (hcomparator : t.options.comparator = w.comparator)
    (hsorted : Cursor.Sorted w.comparator.compare entries) (verifyChecksums : Bool) :
    Cursor.Seeks (t.ops port verifyChecksums) w.comparator.compare entries
      (Stands port w img) := by
  have hindex : Cursor.Seeks t.blockOps w.comparator.compare img.index.image.entries
      (BlockIterator.Stands img.index.image) := by
    rw [blockOps, hcomparator]
    exact BlockIterator.seeks h.small.index (h.sorted_index hsorted)
  have hdata : ∀ b ∈ img.index.image.entries, Cursor.Seeks t.blockOps w.comparator.compare
      (contentsAt port w img b.2) (StandsAt port w img b.2) := by
    intro b hb target it i
    obtain ⟨p, hp, hblock, -⟩ := blockAt_of_mem_index h.describes hb
    rintro ⟨p', hp', hstands⟩
    rw [hblock] at hp'
    cases hp'
    refine ⟨p, hblock, ?_⟩
    rw [contentsAt, hblock, blockOps, hcomparator]
    exact BlockIterator.seeks (h.small.blocks p hp) (sorted_block h.describes hsorted hp) target
      hstands
  have hseeks := TwoLevelIterator.seeks (h.levels verifyChecksums) hindex hdata
    (h.separated hsorted) h.steps
  rwa [concatenated_index h.describes h.small] at hseeks

end Iterator

end Table

end BloomHierarchy
