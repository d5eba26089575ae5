import BloomHierarchy.BlockFormat
import BloomHierarchy.FilterBlock
import BloomHierarchy.TableFormat

/-!
# Writing a table (`table/table_builder`)

The builder collects entries in a data block and writes the block once it is
large enough. The index entry of a block is written when the next key is known,
so that its key can be a short one between both. `Finish` adds the filter block,
the metaindex block, the index block and the footer.

Every call to the file can fail, and may have written a part of its bytes then.
The builder keeps the first error and does nothing after it. The assertions of
the source are left out, with `closed` and the count of the entries, which only
they and `NumEntries` read.

`TableBuilder.Builds` says what a builder without an error has written so far;
`TableBuilder.Builds.add` and `TableBuilder.Builds.addAll` are what one entry and a
whole run keep. The finished table is in `TableImage`.
-/

namespace BloomHierarchy

/-! ## The file -/

/-- A file, and how the coming calls end: with no error, or with a status after some of the
bytes. Calls beyond the list succeed. -/
structure WritableFile where
  contents : Bytes := []
  outcomes : List (Option (Bytes × Nat)) := []

namespace WritableFile

def append (data : Bytes) (f : WritableFile) : WritableFile × Option Bytes :=
  match f.outcomes with
  | some (status, written) :: outcomes =>
    ({ contents := f.contents ++ data.take written, outcomes }, some status)
  | outcomes => ({ contents := f.contents ++ data, outcomes := outcomes.tail }, none)

def flush (f : WritableFile) : WritableFile × Option Bytes :=
  f.append []

theorem contents_append {f : WritableFile} {data : Bytes} (h : (f.append data).2 = none) :
    (f.append data).1.contents = f.contents ++ data := by
  unfold append at h ⊢
  split at h
  next => cases h
  next => rfl

theorem contents_flush {f : WritableFile} (h : f.flush.2 = none) :
    f.flush.1.contents = f.contents :=
  (contents_append h).trans (List.append_nil _)

end WritableFile

/-! ## The builder -/

structure TableOptions where
  comparator : Comparator
  blockSize : Nat
  blockRestartInterval : Nat
  compression : CompressionType
  filterPolicy : Option FilterPolicy
  paranoidChecks : Bool := false

structure TableBuilder where
  file : WritableFile
  offset : Nat := 0
  status : Option Bytes := none
  dataBlock : BlockBuilder
  indexBlock : BlockBuilder
  lastKey : Bytes := []
  filterBlock : Option (FilterPolicy × FilterBlockBuilder)
  pendingIndexEntry : Bool := false
  pendingHandle : BlockHandle := ⟨-1, -1⟩

namespace TableBuilder

section
variable (port : Port) (options : TableOptions)

def new (file : WritableFile) : TableBuilder where
  file
  dataBlock := { blockRestartInterval := options.blockRestartInterval }
  indexBlock := { blockRestartInterval := 1 }
  filterBlock := options.filterPolicy.map fun policy =>
    (policy, FilterBlockBuilder.startBlock policy 0 {})

/-- The handle is returned. -/
def writeRawBlock (contents : Bytes) (type : CompressionType) (b : TableBuilder) :
    TableBuilder × BlockHandle :=
  let handle : BlockHandle := ⟨UInt64.ofNat b.offset, UInt64.ofNat contents.length⟩
  let stored := b.file.append contents
  if stored.2 = none then
    let ended := stored.1.append (blockTrailer port contents type)
    let offset :=
      if ended.2 = none then b.offset + (contents.length + kBlockTrailerSize) else b.offset
    ({ b with file := ended.1, status := ended.2, offset }, handle)
  else ({ b with file := stored.1, status := stored.2 }, handle)

/-- The callers reset the block. -/
def writeBlock (block : BlockBuilder) (b : TableBuilder) : TableBuilder × BlockHandle :=
  let stored := compressBlock port options.compression block.finish
  b.writeRawBlock port stored.1 stored.2

def flush (b : TableBuilder) : TableBuilder :=
  if b.status ≠ none then b
  else if b.dataBlock.empty then b
  else
    let written := b.writeBlock port options b.dataBlock
    let b : TableBuilder :=
      { written.1 with dataBlock := written.1.dataBlock.reset, pendingHandle := written.2 }
    let b : TableBuilder :=
      if b.status = none then
        { b with pendingIndexEntry := true, file := b.file.flush.1, status := b.file.flush.2 }
      else b
    { b with
      filterBlock := b.filterBlock.map fun f => (f.1, f.2.startBlock f.1 b.offset) }

/-- The index entry of the last block, under a key that is known by now. -/
def addIndexEntry (key : Bytes) (b : TableBuilder) : TableBuilder :=
  if b.pendingIndexEntry then
    { b with
      lastKey := key
      indexBlock := b.indexBlock.add key (b.pendingHandle.encodeTo [])
      pendingIndexEntry := false }
  else b

/-- `Add` up to the test of the block's size. -/
def addEntry (key value : Bytes) (b : TableBuilder) : TableBuilder :=
  let b := b.addIndexEntry (options.comparator.findShortestSeparator b.lastKey key)
  { b with
    filterBlock := b.filterBlock.map fun f => (f.1, f.2.addKey key)
    lastKey := key
    dataBlock := b.dataBlock.add key value }

def add (key value : Bytes) (b : TableBuilder) : TableBuilder :=
  if b.status ≠ none then b
  else
    let b := b.addEntry options key value
    if options.blockSize ≤ b.dataBlock.currentSizeEstimate then b.flush port options else b

def addAll (b : TableBuilder) (entries : List (Bytes × Bytes)) : TableBuilder :=
  entries.foldl (fun b e => b.add port options e.1 e.2) b

def writeFilterBlock (b : TableBuilder) : TableBuilder × BlockHandle :=
  match b.filterBlock with
  | some (policy, filters) =>
    if b.status = none then b.writeRawBlock port (filters.finish policy) .none
    else (b, ⟨-1, -1⟩)
  | none => (b, ⟨-1, -1⟩)

/-- The location of the filters, under the name of their policy. -/
def metaIndexBlock (filterBlockHandle : BlockHandle) (b : TableBuilder) : BlockBuilder :=
  let block : BlockBuilder := { blockRestartInterval := options.blockRestartInterval }
  match b.filterBlock with
  | some (policy, _) =>
    block.add (ascii "filter.".toList ++ policy.name) (filterBlockHandle.encodeTo [])
  | none => block

def writeMetaIndexBlock (filterBlockHandle : BlockHandle) (b : TableBuilder) :
    TableBuilder × BlockHandle :=
  if b.status = none then b.writeBlock port options (b.metaIndexBlock options filterBlockHandle)
  else (b, ⟨-1, -1⟩)

def writeIndexBlock (b : TableBuilder) : TableBuilder × BlockHandle :=
  if b.status = none then
    let b := b.addIndexEntry (options.comparator.findShortSuccessor b.lastKey)
    b.writeBlock port options b.indexBlock
  else (b, ⟨-1, -1⟩)

def writeFooter (footer : Footer) (b : TableBuilder) : TableBuilder :=
  if b.status = none then
    let ended := b.file.append footer.encodeTo
    let offset := if ended.2 = none then b.offset + footer.encodeTo.length else b.offset
    { b with file := ended.1, status := ended.2, offset }
  else b

def finish (b : TableBuilder) : TableBuilder :=
  let filtered := (b.flush port options).writeFilterBlock port
  let described := filtered.1.writeMetaIndexBlock port options filtered.2
  let indexed := described.1.writeIndexBlock port options
  indexed.1.writeFooter { metaindexHandle := described.2, indexHandle := indexed.2 }

end

end TableBuilder

/-- A table with these entries in an empty file. -/
def buildTable (port : Port) (options : TableOptions) (outcomes : List (Option (Bytes × Nat)))
    (entries : List (Bytes × Bytes)) : TableBuilder :=
  ((TableBuilder.new options { outcomes }).addAll port options entries).finish port options

/-! ## The keys of the index -/

def firstKeyOf (block : List (Bytes × Bytes)) : Bytes :=
  (block.head?.map Prod.fst).getD []

def lastKeyOf (block : List (Bytes × Bytes)) : Bytes :=
  (block.getLast?.map Prod.fst).getD []

/-- Between each block and the next one. -/
def separators (c : Comparator) : List (List (Bytes × Bytes)) → List Bytes
  | block :: block' :: blocks =>
    c.findShortestSeparator (lastKeyOf block) (firstKeyOf block') :: separators c (block' :: blocks)
  | _ => []

theorem length_separators (c : Comparator) (blocks : List (List (Bytes × Bytes))) :
    (separators c blocks).length = blocks.length - 1 := by
  fun_induction separators c blocks with
  | case1 block block' blocks ih => simp [ih]
  | case2 blocks h =>
    match blocks, h with
    | [], _ => rfl
    | [_], _ => rfl
    | b :: b' :: bs, h => exact absurd rfl (h b b' bs)

theorem separators_concat (c : Comparator) (blocks : List (List (Bytes × Bytes)))
    (block block' : List (Bytes × Bytes)) :
    separators c (blocks ++ [block, block']) =
      separators c (blocks ++ [block]) ++
        [c.findShortestSeparator (lastKeyOf block) (firstKeyOf block')] := by
  induction blocks with
  | nil => rfl
  | cons b blocks ih =>
    cases blocks with
    | nil => rfl
    | cons b' blocks =>
      simp only [List.cons_append, separators] at ih ⊢
      rw [ih]

/-- The keys depend on the last block only through its first key. -/
theorem separators_congr (c : Comparator) (blocks : List (List (Bytes × Bytes)))
    {block block' : List (Bytes × Bytes)} (h : firstKeyOf block = firstKeyOf block') :
    separators c (blocks ++ [block]) = separators c (blocks ++ [block']) := by
  rcases List.eq_nil_or_concat blocks with rfl | ⟨blocks, last, rfl⟩
  · rfl
  · rw [List.concat_eq_append, List.append_assoc, List.append_assoc]
    exact (separators_concat c blocks last block).trans
      ((separators_concat c blocks last block').trans (by rw [h])).symm

theorem zip_concat_of_length {keys handles : List Bytes} (h : keys.length = handles.length)
    (handle : Bytes) : keys.zip (handles ++ [handle]) = keys.zip handles := by
  have hzip : (keys ++ []).zip (handles ++ [handle]) = keys.zip handles ++ [].zip [handle] :=
    List.zip_append h
  rwa [List.append_nil, List.zip_nil_left, List.append_nil] at hzip

/-- The index entry of a block is added once the next block has a key. -/
theorem zip_separators_concat (c : Comparator) {blocks : List (List (Bytes × Bytes))}
    {handles : List Bytes} (hlen : handles.length = blocks.length)
    (block block' : List (Bytes × Bytes)) (handle : Bytes) :
    (separators c (blocks ++ [block, block'])).zip (handles ++ [handle]) =
      (separators c (blocks ++ [block])).zip (handles ++ [handle]) ++
        [(c.findShortestSeparator (lastKeyOf block) (firstKeyOf block'), handle)] := by
  have hseps : (separators c (blocks ++ [block])).length = handles.length := by
    rw [length_separators, hlen, List.length_append, List.length_singleton, Nat.add_sub_cancel]
  rw [separators_concat, List.zip_append hseps, zip_concat_of_length hseps]
  rfl

/-- The keys of a finished index: behind the last block a key that follows it. -/
def indexKeys (c : Comparator) : List (List (Bytes × Bytes)) → List Bytes
  | block :: block' :: blocks =>
    c.findShortestSeparator (lastKeyOf block) (firstKeyOf block') :: indexKeys c (block' :: blocks)
  | [block] => [c.findShortSuccessor (lastKeyOf block)]
  | [] => []

theorem indexKeys_concat (c : Comparator) (blocks : List (List (Bytes × Bytes)))
    (block : List (Bytes × Bytes)) :
    indexKeys c (blocks ++ [block]) =
      separators c (blocks ++ [block]) ++ [c.findShortSuccessor (lastKeyOf block)] := by
  induction blocks with
  | nil => rfl
  | cons b blocks ih =>
    cases blocks with
    | nil => rfl
    | cons b' blocks =>
      simp only [List.cons_append, indexKeys, separators] at ih ⊢
      rw [ih]

theorem lastKeyOf_append {block block' : List (Bytes × Bytes)} (h : block' ≠ []) :
    lastKeyOf (block ++ block') = lastKeyOf block' := by
  rw [lastKeyOf, lastKeyOf, List.getLast?_append_of_ne_nil _ h]

theorem firstKeyOf_append {block block' : List (Bytes × Bytes)} (h : block ≠ []) :
    firstKeyOf (block ++ block') = firstKeyOf block := by
  rw [firstKeyOf, firstKeyOf, List.head?_append_of_ne_nil _ h]

/-! ## What the calls write -/

/-- The bytes stand in the file right behind `front`. -/
def StandsIn (file front bytes : Bytes) : Prop :=
  ∃ rest, file = front ++ (bytes ++ rest)

theorem standsIn_concat (front bytes : Bytes) : StandsIn (front ++ bytes) front bytes :=
  ⟨[], by rw [List.append_nil]⟩

/-- What was written stays where it is. -/
theorem StandsIn.append {file front bytes : Bytes} (h : StandsIn file front bytes)
    (more : Bytes) : StandsIn (file ++ more) front bytes := by
  obtain ⟨rest, h⟩ := h
  exact ⟨rest ++ more, by rw [h, List.append_assoc, List.append_assoc]⟩

/-- A block of the table and the bytes in front of it. -/
structure Placed where
  image : BlockImage
  front : Bytes

namespace Placed

variable (port : Port) (compression : CompressionType)

def handle (p : Placed) : BlockHandle :=
  handleAt p.front (compressBlock port compression p.image.bytes).1

def InFile (file : Bytes) (p : Placed) : Prop :=
  StandsIn file p.front (blockBytes port compression p.image.bytes)

end Placed

namespace TableBuilder

variable {port : Port} {options : TableOptions} {b : TableBuilder}

/-- A block that was written without an error stands at the end of the file. -/
theorem writeRawBlock_ok {contents : Bytes} {type : CompressionType}
    (hoffset : b.offset = b.file.contents.length)
    (hok : (b.writeRawBlock port contents type).1.status = none) :
    ∃ file : WritableFile, file.contents = b.file.contents ++ rawBlock port contents type ∧
      b.writeRawBlock port contents type =
        ({ b with file, status := none, offset := file.contents.length },
          handleAt b.file.contents contents) := by
  unfold writeRawBlock at hok ⊢
  dsimp only at hok ⊢
  split at hok
  next hstored =>
    dsimp only at hok
    have hcontents : ((b.file.append contents).1.append (blockTrailer port contents type)).1.contents =
        b.file.contents ++ rawBlock port contents type := by
      rw [WritableFile.contents_append hok, WritableFile.contents_append hstored, rawBlock,
        List.append_assoc]
    refine ⟨_, hcontents, ?_⟩
    rw [if_pos hstored, if_pos hok, hok, hcontents, List.length_append, length_rawBlock, hoffset,
      handleAt]
  next hfailed => exact absurd hok hfailed

theorem writeBlock_ok {block : BlockBuilder} {img : BlockImage} (hblock : block.Writes img)
    (hoffset : b.offset = b.file.contents.length)
    (hok : (b.writeBlock port options block).1.status = none) :
    ∃ file : WritableFile,
      file.contents = b.file.contents ++ blockBytes port options.compression img.bytes ∧
      b.writeBlock port options block =
        ({ b with file, status := none, offset := file.contents.length },
          Placed.handle port options.compression ⟨img, b.file.contents⟩) := by
  unfold writeBlock at hok ⊢
  rw [hblock.finish] at hok ⊢
  exact writeRawBlock_ok hoffset hok

/-! ## What a builder has written -/

/-- The blocks so far; the current one counts once it has an entry. -/
def blocksOf (placed : List Placed) (current : List (Bytes × Bytes)) :
    List (List (Bytes × Bytes)) :=
  placed.map (fun p => p.image.entries) ++ if current = [] then [] else [current]

def encodedHandles (port : Port) (options : TableOptions) (placed : List Placed) : List Bytes :=
  placed.map fun p => (p.handle port options.compression).encodeTo []

theorem encodedHandles_concat (placed : List Placed) (p : Placed) :
    encodedHandles port options (placed ++ [p]) =
      encodedHandles port options placed ++ [(p.handle port options.compression).encodeTo []] := by
  rw [encodedHandles, List.map_append]
  rfl

/-- The keys of every block were added to the filters for the block's offset. -/
structure Filters (options : TableOptions) (b : TableBuilder) (placed : List Placed)
    (current : List (Bytes × Bytes)) : Prop where
  policy : b.filterBlock.map Prod.fst = options.filterPolicy
  written : ∀ f, b.filterBlock = some f → ∃ groups added,
    FilterBlockBuilder.Writes f.1 f.2 groups added ∧
    groups.length = b.offset / kFilterBase ∧
    (∀ p ∈ placed, ∀ e ∈ p.image.entries, (p.front.length, e.1) ∈ added) ∧
    ∀ e ∈ current, (b.offset, e.1) ∈ added

/-- What a builder without an error has written after `entries`: the blocks in the file, the
current block, and the index entries of all blocks whose next key is known. -/
structure Builds (port : Port) (options : TableOptions) (b : TableBuilder)
    (entries : List (Bytes × Bytes)) (placed : List Placed) (current index : BlockImage) :
    Prop where
  ok : b.status = none
  offset : b.offset = b.file.contents.length
  inFile : ∀ p ∈ placed, p.InFile port options.compression b.file.contents
  nonempty : ∀ p ∈ placed, p.image.entries ≠ []
  all : entries = placed.flatMap (fun p => p.image.entries) ++ current.entries
  data : b.dataBlock.Writes current
  dataInterval : b.dataBlock.blockRestartInterval = options.blockRestartInterval
  indexed : b.indexBlock.Writes index
  indexInterval : b.indexBlock.blockRestartInterval = 1
  indexEntries : index.entries =
    (separators options.comparator (blocksOf placed current.entries)).zip
      (encodedHandles port options placed)
  lastKey : entries ≠ [] → b.lastKey = lastKeyOf entries
  pending : b.pendingIndexEntry = true ↔ placed ≠ [] ∧ current.entries = []
  handle : current.entries = [] → ∀ p, placed.getLast? = some p →
    b.pendingHandle = p.handle port options.compression
  filters : Filters options b placed current.entries

theorem filters_new (options : TableOptions) (file : WritableFile) :
    Filters options (new options file) [] [] where
  policy := by
    show (options.filterPolicy.map _).map Prod.fst = _
    rw [Option.map_map]
    exact Option.map_id'
  written := by
    intro f hf
    obtain ⟨policy, -, rfl⟩ := Option.map_eq_some_iff.mp hf
    obtain ⟨groups, h, hlen⟩ :=
      (FilterBlockBuilder.writes_nil policy).startBlock (Nat.zero_le (0 / kFilterBase))
    exact ⟨groups, [], h, hlen, by simp, by simp⟩

theorem builds_new (port : Port) (options : TableOptions)
    (outcomes : List (Option (Bytes × Nat))) :
    Builds port options (new options { outcomes }) [] [] .nil .nil where
  ok := rfl
  offset := rfl
  inFile := by simp
  nonempty := by simp
  all := rfl
  data := BlockBuilder.writes_nil (.mk options.blockRestartInterval [] [0] 0 [])
  dataInterval := rfl
  indexed := BlockBuilder.writes_nil (.mk 1 [] [0] 0 [])
  indexInterval := rfl
  indexEntries := rfl
  lastKey := fun h => absurd rfl h
  pending := by simp [new]
  handle := by simp
  filters := filters_new options _

/-! ## One entry -/

variable {entries : List (Bytes × Bytes)} {placed : List Placed} {current index : BlockImage}

theorem Filters.addKey (h : Filters options b placed current.entries) {b' : TableBuilder}
    (hoffset : b'.offset = b.offset) {key value : Bytes}
    (hfilter : b'.filterBlock = b.filterBlock.map fun f => (f.1, f.2.addKey key)) :
    Filters options b' placed (current.entries ++ [(key, value)]) where
  policy := by
    rw [hfilter, Option.map_map]
    exact h.policy
  written := by
    intro f' hf'
    rw [hfilter] at hf'
    obtain ⟨f, hf, rfl⟩ := Option.map_eq_some_iff.mp hf'
    obtain ⟨groups, added, hwrites, hlen, hplaced, hcurrent⟩ := h.written f hf
    refine ⟨groups, _, hwrites.addKey hlen key, by rw [hoffset, hlen], fun p hp e he => ?_,
      fun e he => ?_⟩
    · exact List.mem_cons_of_mem _ (hplaced p hp e he)
    · rw [hoffset]
      rcases List.mem_append.mp he with he | he
      · exact List.mem_cons_of_mem _ (hcurrent e he)
      · rw [List.mem_singleton.mp he]
        exact List.mem_cons_self

theorem blocksOf_nil (placed : List Placed) :
    blocksOf placed [] = placed.map fun p => p.image.entries := by
  simp [blocksOf]

theorem blocksOf_of_ne_nil (placed : List Placed) {current : List (Bytes × Bytes)}
    (h : current ≠ []) :
    blocksOf placed current = (placed.map fun p => p.image.entries) ++ [current] := by
  simp [blocksOf, h]

/-- Between two blocks the last key belongs to the last block in the file. -/
theorem Builds.lastKey_eq {before : List Placed} {last : Placed}
    (h : Builds port options b entries (before ++ [last]) current index)
    (hcurrent : current.entries = []) : b.lastKey = lastKeyOf last.image.entries := by
  have hlast : last.image.entries ≠ [] := h.nonempty last (by simp)
  have hall := h.all
  rw [hcurrent, List.append_nil, List.flatMap_append, List.flatMap_singleton] at hall
  rw [h.lastKey (by rw [hall]; simp [hlast]), hall, lastKeyOf_append hlast]

/-- The index after an entry. A pending index entry is completed by its key; an entry of a
block that has a key already changes nothing. -/
theorem Builds.addIndexEntry (h : Builds port options b entries placed current index)
    (key value : Bytes) :
    ∃ index' : BlockImage,
      (b.addIndexEntry (options.comparator.findShortestSeparator b.lastKey key)).indexBlock.Writes
        index' ∧
      index'.entries = (separators options.comparator
        (blocksOf placed (current.entries ++ [(key, value)]))).zip
          (encodedHandles port options placed) := by
  have hne : current.entries ++ [(key, value)] ≠ [] := by simp
  rw [blocksOf_of_ne_nil placed hne]
  unfold TableBuilder.addIndexEntry
  split
  next hpending =>
    obtain ⟨hplaced, hcurrent⟩ := h.pending.mp hpending
    obtain ⟨before, last, rfl⟩ := (List.eq_nil_or_concat' placed).resolve_left hplaced
    have hkey := h.lastKey_eq hcurrent
    have hhandle := h.handle hcurrent last (by simp)
    obtain ⟨index', hwrites, hentries⟩ := h.indexed.add (Nat.le_of_eq h.indexInterval.symm)
      (options.comparator.findShortestSeparator b.lastKey key) (b.pendingHandle.encodeTo [])
    refine ⟨index', hwrites, ?_⟩
    rw [hentries, h.indexEntries, hcurrent, blocksOf_nil, hkey, hhandle]
    have hlen : (encodedHandles port options before).length =
        (before.map fun p => p.image.entries).length := by
      rw [encodedHandles, List.length_map, List.length_map]
    have hnext := zip_separators_concat options.comparator hlen last.image.entries
      [(key, value)] ((last.handle port options.compression).encodeTo [])
    simp only [encodedHandles, List.map_append, List.map_singleton, List.append_assoc,
      List.singleton_append, List.nil_append] at hnext ⊢
    exact hnext.symm
  next hpending =>
    refine ⟨index, h.indexed, ?_⟩
    rw [h.indexEntries]
    rcases List.eq_nil_or_concat' placed with rfl | hplaced
    · simp [encodedHandles]
    · have hcurrent : current.entries ≠ [] := by
        intro hnone
        obtain ⟨before, last, rfl⟩ := hplaced
        exact hpending (h.pending.mpr ⟨by simp, hnone⟩)
      rw [blocksOf_of_ne_nil placed hcurrent,
        separators_congr _ _ (firstKeyOf_append hcurrent).symm]

theorem addIndexEntry_of_ne (b : TableBuilder) (key : Bytes) :
    ∃ indexBlock lastKey, indexBlock = (b.addIndexEntry key).indexBlock ∧
      b.addIndexEntry key = { b with indexBlock, lastKey, pendingIndexEntry := false } := by
  unfold TableBuilder.addIndexEntry
  split
  next => exact ⟨_, _, rfl, rfl⟩
  next h =>
    refine ⟨b.indexBlock, b.lastKey, rfl, ?_⟩
    cases b
    simp_all

theorem addIndexEntry_blockRestartInterval (b : TableBuilder) (key : Bytes) :
    (b.addIndexEntry key).indexBlock.blockRestartInterval = b.indexBlock.blockRestartInterval := by
  unfold TableBuilder.addIndexEntry
  split
  next => exact BlockBuilder.add_blockRestartInterval _ _ _
  next => rfl

theorem Builds.addEntry (hinterval : 1 ≤ options.blockRestartInterval)
    (h : Builds port options b entries placed current index) (key value : Bytes) :
    ∃ current' index' : BlockImage, current'.entries = current.entries ++ [(key, value)] ∧
      Builds port options (b.addEntry options key value) (entries ++ [(key, value)]) placed
        current' index' := by
  obtain ⟨index', hindex, hindexEntries⟩ := h.addIndexEntry key value
  obtain ⟨current', hdata, hcurrent⟩ := h.data.add (by rw [h.dataInterval]; exact hinterval) key
    value
  have hindexInterval := (addIndexEntry_blockRestartInterval b
    (options.comparator.findShortestSeparator b.lastKey key)).trans h.indexInterval
  obtain ⟨indexBlock, lastKey, hblock, hb⟩ := addIndexEntry_of_ne b
    (options.comparator.findShortestSeparator b.lastKey key)
  rw [← hblock] at hindex hindexInterval
  refine ⟨current', index', hcurrent, ?_⟩
  unfold TableBuilder.addEntry
  rw [hb]
  exact {
    ok := h.ok
    offset := h.offset
    inFile := h.inFile
    nonempty := h.nonempty
    all := by rw [h.all, hcurrent, List.append_assoc]
    data := hdata
    dataInterval := (BlockBuilder.add_blockRestartInterval _ _ _).trans h.dataInterval
    indexed := hindex
    indexInterval := hindexInterval
    indexEntries := by rw [hindexEntries, hcurrent]
    lastKey := fun _ => by simp [lastKeyOf]
    pending := by simp [hcurrent]
    handle := by simp [hcurrent]
    filters := by
      rw [hcurrent]
      refine h.filters.addKey ?_ ?_
      · rfl
      · rfl }

/-! ## A full block -/

theorem encodeAll_eq_nil_iff {items : List BlockEntry} : encodeAll items = [] ↔ items = [] := by
  cases items with
  | nil => simp [encodeAll]
  | cons e items =>
    have := e.three_le_length_encode
    constructor
    · intro hnil
      have hlen := congrArg List.length hnil
      rw [encodeAll, List.flatMap_cons, List.length_append, List.length_nil] at hlen
      omega
    · intro h
      cases h

theorem Builds.empty_iff (h : Builds port options b entries placed current index) :
    b.dataBlock.empty = true ↔ current.entries = [] := by
  rw [BlockBuilder.empty, List.isEmpty_iff, h.data.buffer, encodeAll_eq_nil_iff,
    BlockImage.entries, List.map_eq_nil_iff]

theorem Filters.startBlock (h : Filters options b placed current.entries)
    (hoffset : b.offset = b.file.contents.length) {b' : TableBuilder}
    (hforward : b.offset ≤ b'.offset)
    (hfilter : b'.filterBlock = b.filterBlock.map fun f => (f.1, f.2.startBlock f.1 b'.offset)) :
    Filters options b' (placed ++ [⟨current, b.file.contents⟩]) [] where
  policy := by
    rw [hfilter, Option.map_map]
    exact h.policy
  written := by
    intro f' hf'
    rw [hfilter] at hf'
    obtain ⟨f, hf, rfl⟩ := Option.map_eq_some_iff.mp hf'
    obtain ⟨groups, added, hwrites, hlen, hplaced, hcurrent⟩ := h.written f hf
    obtain ⟨groups', hwrites', hlen'⟩ := hwrites.startBlock
      (hlen ▸ Nat.div_le_div_right hforward : groups.length ≤ b'.offset / kFilterBase)
    refine ⟨groups', added, hwrites', hlen', fun p hp e he => ?_, by simp⟩
    rcases List.mem_append.mp hp with hp | hp
    · exact hplaced p hp e he
    · rw [List.mem_singleton.mp hp] at he ⊢
      rw [← hoffset]
      exact hcurrent e he

theorem flush_eq (hstatus : b.status = none) (hne : b.dataBlock.empty = false)
    {file : WritableFile} {handle : BlockHandle} {offset : Nat}
    (hwritten : b.writeBlock port options b.dataBlock =
      ({ b with file, status := none, offset }, handle)) :
    b.flush port options =
      { b with
        file := file.flush.1
        offset
        status := file.flush.2
        dataBlock := b.dataBlock.reset
        filterBlock := b.filterBlock.map fun f => (f.1, f.2.startBlock f.1 offset)
        pendingIndexEntry := true
        pendingHandle := handle } := by
  unfold TableBuilder.flush
  rw [if_neg (not_not.mpr hstatus), if_neg (by rw [hne]; exact Bool.false_ne_true)]
  dsimp only
  rw [hwritten]
  rfl

/-- An error of the block's bytes is the error of `flush`. -/
theorem writeBlock_status_of_flush (hstatus : b.status = none) (hne : b.dataBlock.empty = false)
    (hok : (b.flush port options).status = none) :
    (b.writeBlock port options b.dataBlock).1.status = none := by
  unfold TableBuilder.flush at hok
  rw [if_neg (not_not.mpr hstatus), if_neg (by rw [hne]; exact Bool.false_ne_true)] at hok
  dsimp only at hok
  split at hok
  next hwritten => exact hwritten
  next hfailed => exact absurd hok hfailed

/-- A current block with entries becomes the last block of the file. -/
theorem Builds.flush (h : Builds port options b entries placed current index)
    (hok : (b.flush port options).status = none) :
    ∃ placed' current', current'.entries = [] ∧
      Builds port options (b.flush port options) entries placed' current' index := by
  by_cases hcurrent : current.entries = []
  · have hsame : b.flush port options = b := by
      unfold TableBuilder.flush
      rw [if_neg (not_not.mpr h.ok), if_pos (h.empty_iff.mpr hcurrent)]
    exact ⟨placed, current, hcurrent, hsame.symm ▸ h⟩
  · have hne : b.dataBlock.empty = false :=
      Bool.eq_false_iff.mpr fun hempty => hcurrent (h.empty_iff.mp hempty)
    obtain ⟨file, hfile, hwritten⟩ := writeBlock_ok h.data h.offset
      (writeBlock_status_of_flush h.ok hne hok)
    rw [flush_eq h.ok hne hwritten] at hok ⊢
    have hflushed : file.flush.1.contents = file.contents := WritableFile.contents_flush hok
    refine ⟨placed ++ [⟨current, b.file.contents⟩], .nil, rfl, ?_⟩
    exact {
      ok := hok
      offset := congrArg List.length hflushed.symm
      inFile := by
        intro p hp
        show p.InFile port options.compression file.flush.1.contents
        rw [hflushed, hfile]
        rcases List.mem_append.mp hp with hp | hp
        · exact StandsIn.append (h.inFile p hp) _
        · rw [List.mem_singleton.mp hp]
          exact standsIn_concat _ _
      nonempty := by
        intro p hp
        rcases List.mem_append.mp hp with hp | hp
        · exact h.nonempty p hp
        · rw [List.mem_singleton.mp hp]
          exact hcurrent
      all := by
        rw [h.all, List.flatMap_append, List.flatMap_singleton]
        exact (List.append_nil _).symm
      data := BlockBuilder.writes_nil _
      dataInterval := h.dataInterval
      indexed := h.indexed
      indexInterval := h.indexInterval
      indexEntries := by
        -- the new block has no index entry yet
        have hlen : (separators options.comparator (blocksOf placed current.entries)).length =
            (encodedHandles port options placed).length := by
          rw [length_separators, blocksOf_of_ne_nil placed hcurrent, List.length_append,
            List.length_singleton, Nat.add_sub_cancel, List.length_map, encodedHandles,
            List.length_map]
        have hblocks : blocksOf (placed ++ [⟨current, b.file.contents⟩]) BlockImage.nil.entries =
            blocksOf placed current.entries := by
          rw [blocksOf_of_ne_nil placed hcurrent]
          exact (blocksOf_nil _).trans List.map_append
        rw [h.indexEntries, hblocks, encodedHandles_concat, zip_concat_of_length hlen]
      lastKey := h.lastKey
      pending := ⟨fun _ => ⟨by simp, rfl⟩, fun _ => rfl⟩
      handle := by
        intro _ p hp
        rw [List.getLast?_concat] at hp
        cases hp
        rfl
      filters := by
        refine h.filters.startBlock h.offset ?_ ?_
        · show b.offset ≤ file.contents.length
          rw [hfile, List.length_append, h.offset]
          exact Nat.le_add_right _ _
        · rfl }

/-! ## Runs -/

theorem Builds.add (hinterval : 1 ≤ options.blockRestartInterval)
    (h : Builds port options b entries placed current index) {key value : Bytes}
    (hok : (b.add port options key value).status = none) :
    ∃ placed' current' index', Builds port options (b.add port options key value)
      (entries ++ [(key, value)]) placed' current' index' := by
  obtain ⟨current', index', -, h'⟩ := h.addEntry hinterval key value
  unfold TableBuilder.add at hok ⊢
  rw [if_neg (not_not.mpr h.ok)] at hok ⊢
  dsimp only at hok ⊢
  split at hok
  next hfull =>
    rw [if_pos hfull]
    obtain ⟨placed', current'', -, h''⟩ := h'.flush hok
    exact ⟨placed', current'', index', h''⟩
  next hfull =>
    rw [if_neg hfull]
    exact ⟨placed, current', index', h'⟩

/-- The first error stays. -/
theorem addAll_of_status (hstatus : b.status ≠ none) (entries : List (Bytes × Bytes)) :
    b.addAll port options entries = b := by
  induction entries with
  | nil => rfl
  | cons e entries ih =>
    show (b.add port options e.1 e.2).addAll port options entries = b
    rw [TableBuilder.add, if_pos hstatus, ih]

theorem Builds.addAll (hinterval : 1 ≤ options.blockRestartInterval)
    (h : Builds port options b entries placed current index) {more : List (Bytes × Bytes)}
    (hok : (b.addAll port options more).status = none) :
    ∃ placed' current' index', Builds port options (b.addAll port options more)
      (entries ++ more) placed' current' index' := by
  induction more generalizing b entries placed current index with
  | nil => exact ⟨placed, current, index, (List.append_nil entries).symm ▸ h⟩
  | cons e more ih =>
    have hadd : (b.add port options e.1 e.2).status = none := by
      by_contra hfailed
      have hsame : b.addAll port options (e :: more) = b.add port options e.1 e.2 :=
        addAll_of_status hfailed more
      exact hfailed (hsame ▸ hok)
    obtain ⟨placed₁, current₁, index₁, h₁⟩ := h.add hinterval hadd
    obtain ⟨placed', current', index', h'⟩ := ih h₁ hok
    rw [List.append_assoc] at h'
    exact ⟨placed', current', index', h'⟩

end TableBuilder

end BloomHierarchy
