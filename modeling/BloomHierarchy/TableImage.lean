import BloomHierarchy.TableBuilder

/-!
# A finished table

`TableImage` names the blocks of a table and their places in the file, and
`TableImage.Describes` says what the file has there: the entries in well-formed
blocks, an index entry for every block under a key between it and the next one,
the filters, and a footer with the places of the metaindex and the index block.

`TableBuilder.finish_written`: if `Finish` reports no error, the file is described
by an image with exactly the entries that were added. Every error on the way is
reported, as no later call clears it.
-/

namespace BloomHierarchy

/-- The blocks of a table with their places. -/
structure TableImage where
  blocks : List Placed
  metaIndex : Placed
  index : Placed

namespace TableImage

variable (port : Port) (options : TableOptions)

def footer (img : TableImage) : Footer where
  metaindexHandle := img.metaIndex.handle port options.compression
  indexHandle := img.index.handle port options.compression

/-- The filter block and its entry in the metaindex block. Every key of a block was added for
the block's offset. -/
def HasFilter (img : TableImage) (file : Bytes) (policy : FilterPolicy) : Prop :=
  ∃ (filters : FilterBlockBuilder) (front : Bytes) (groups : List (List Bytes))
    (added : List (Nat × Bytes)),
    StandsIn file front (rawBlock port (filters.finish policy) .none) ∧
    img.metaIndex.image.entries = [(ascii "filter.".toList ++ policy.name,
      (handleAt front (filters.finish policy)).encodeTo [])] ∧
    FilterBlockBuilder.Writes policy filters groups added ∧
    ∀ p ∈ img.blocks, ∀ e ∈ p.image.entries, (p.front.length, e.1) ∈ added

/-- The file is a table with these entries. -/
structure Describes (img : TableImage) (file : Bytes) (entries : List (Bytes × Bytes)) :
    Prop where
  blocks : ∀ p ∈ img.blocks, p.InFile port options.compression file
  nonempty : ∀ p ∈ img.blocks, p.image.entries ≠ []
  all : entries = img.blocks.flatMap fun p => p.image.entries
  metaIndex : img.metaIndex.InFile port options.compression file
  index : img.index.InFile port options.compression file
  indexEntries : img.index.image.entries =
    (indexKeys options.comparator (img.blocks.map fun p => p.image.entries)).zip
      (TableBuilder.encodedHandles port options img.blocks)
  footer : ∃ front, file = front ++ (img.footer port options).encodeTo
  noFilter : options.filterPolicy = none → img.metaIndex.image.entries = []
  filter : ∀ policy, options.filterPolicy = some policy → img.HasFilter port file policy

end TableImage

namespace TableBuilder

variable {port : Port} {options : TableOptions} {b : TableBuilder}
variable {entries : List (Bytes × Bytes)} {placed : List Placed} {current index : BlockImage}

/-- The filter block, if there is one, stands behind the data blocks. -/
theorem writeFilterBlock_ok (hoffset : b.offset = b.file.contents.length)
    (hok : (b.writeFilterBlock port).1.status = none) :
    ∃ (file : WritableFile) (more : Bytes), file.contents = b.file.contents ++ more ∧
      (b.writeFilterBlock port).1 =
        { b with file, status := none, offset := file.contents.length } ∧
      ∀ f, b.filterBlock = some f → more = rawBlock port (f.2.finish f.1) .none ∧
        (b.writeFilterBlock port).2 = handleAt b.file.contents (f.2.finish f.1) := by
  unfold writeFilterBlock at hok ⊢
  split at hok
  next policy filters hfilter =>
    split at hok
    next hstatus =>
      rw [if_pos hstatus]
      obtain ⟨file, hfile, hwritten⟩ := writeRawBlock_ok hoffset hok
      refine ⟨file, _, hfile, by rw [hwritten], fun f hf => ?_⟩
      rw [hfilter] at hf
      cases hf
      exact ⟨rfl, by rw [hwritten]⟩
    next hfailed => exact absurd hok hfailed
  next hnone =>
    refine ⟨b.file, [], (List.append_nil _).symm, ?_, fun f hf => ?_⟩
    · rw [← hoffset, ← hok]
    · rw [hnone] at hf
      cases hf

theorem metaIndexBlock_writes (hinterval : 1 ≤ options.blockRestartInterval)
    (handle : BlockHandle) :
    ∃ img : BlockImage, (b.metaIndexBlock options handle).Writes img ∧
      img.entries = (b.filterBlock.map fun f =>
        (ascii "filter.".toList ++ f.1.name, handle.encodeTo [])).toList := by
  have hnil : BlockBuilder.Writes { blockRestartInterval := options.blockRestartInterval } .nil :=
    BlockBuilder.writes_nil (.mk options.blockRestartInterval [] [0] 0 [])
  unfold metaIndexBlock
  split
  next policy filters hfilter =>
    obtain ⟨img, h, he⟩ := hnil.add hinterval (ascii "filter.".toList ++ policy.name)
      (handle.encodeTo [])
    exact ⟨img, h, by rw [he, hfilter]; rfl⟩
  next hnone => exact ⟨.nil, hnil, by rw [hnone]; rfl⟩

/-- The last block gets a key that follows all its keys. -/
theorem Builds.finishIndex (h : Builds port options b entries placed current index)
    (hcurrent : current.entries = []) :
    ∃ index' : BlockImage,
      (b.addIndexEntry (options.comparator.findShortSuccessor b.lastKey)).indexBlock.Writes
        index' ∧
      index'.entries = (indexKeys options.comparator (placed.map fun p => p.image.entries)).zip
        (encodedHandles port options placed) := by
  rcases List.eq_nil_or_concat' placed with rfl | ⟨before, last, rfl⟩
  · have hpending : b.pendingIndexEntry ≠ true := fun hp => (h.pending.mp hp).1 rfl
    refine ⟨index, ?_, ?_⟩
    · unfold TableBuilder.addIndexEntry
      rw [if_neg hpending]
      exact h.indexed
    · rw [h.indexEntries]
      simp [encodedHandles]
  · have hpending : b.pendingIndexEntry = true := h.pending.mpr ⟨by simp, hcurrent⟩
    have hkey := h.lastKey_eq hcurrent
    have hhandle := h.handle hcurrent last (by simp)
    obtain ⟨index', hwrites, hentries⟩ := h.indexed.add (Nat.le_of_eq h.indexInterval.symm)
      (options.comparator.findShortSuccessor b.lastKey) (b.pendingHandle.encodeTo [])
    refine ⟨index', ?_, ?_⟩
    · unfold TableBuilder.addIndexEntry
      rw [if_pos hpending]
      exact hwrites
    · have hlen : (separators options.comparator
          (before.map (fun p => p.image.entries) ++ [last.image.entries])).length =
          (encodedHandles port options before).length := by
        rw [length_separators, List.length_append, List.length_singleton, Nat.add_sub_cancel,
          List.length_map, encodedHandles, List.length_map]
      rw [hentries, h.indexEntries, hcurrent, blocksOf_nil, hkey, hhandle, encodedHandles_concat,
        List.map_append, List.map_singleton, indexKeys_concat, zip_concat_of_length hlen,
        List.zip_append hlen]
      rfl

theorem writeMetaIndexBlock_ok {handle : BlockHandle} {img : BlockImage}
    (hblock : (b.metaIndexBlock options handle).Writes img)
    (hoffset : b.offset = b.file.contents.length)
    (hok : (b.writeMetaIndexBlock port options handle).1.status = none) :
    ∃ file : WritableFile,
      file.contents = b.file.contents ++ blockBytes port options.compression img.bytes ∧
      b.writeMetaIndexBlock port options handle =
        ({ b with file, status := none, offset := file.contents.length },
          Placed.handle port options.compression ⟨img, b.file.contents⟩) := by
  unfold writeMetaIndexBlock at hok ⊢
  split at hok
  next hstatus =>
    rw [if_pos hstatus]
    exact writeBlock_ok hblock hoffset hok
  next hfailed => exact absurd hok hfailed

theorem writeIndexBlock_ok {img : BlockImage}
    (hblock : (b.addIndexEntry
      (options.comparator.findShortSuccessor b.lastKey)).indexBlock.Writes img)
    (hoffset : b.offset = b.file.contents.length)
    (hok : (b.writeIndexBlock port options).1.status = none) :
    (b.writeIndexBlock port options).1.file.contents =
        b.file.contents ++ blockBytes port options.compression img.bytes ∧
      (b.writeIndexBlock port options).2 =
        Placed.handle port options.compression ⟨img, b.file.contents⟩ := by
  unfold writeIndexBlock at hok ⊢
  split at hok
  next hstatus =>
    rw [if_pos hstatus]
    obtain ⟨indexBlock, lastKey, hindex, hb⟩ := addIndexEntry_of_ne b
      (options.comparator.findShortSuccessor b.lastKey)
    dsimp only at hok ⊢
    rw [← hindex] at hblock
    rw [hb] at hok ⊢
    obtain ⟨file, hfile, hwritten⟩ := writeBlock_ok
      (b := { b with indexBlock, lastKey, pendingIndexEntry := false }) hblock hoffset hok
    rw [hwritten]
    exact ⟨hfile, rfl⟩
  next hfailed => exact absurd hok hfailed

theorem writeFooter_ok {footer : Footer} (hok : (b.writeFooter footer).status = none) :
    b.status = none ∧
      (b.writeFooter footer).file.contents = b.file.contents ++ footer.encodeTo := by
  unfold writeFooter at hok ⊢
  split at hok
  next hstatus =>
    rw [if_pos hstatus]
    exact ⟨hstatus, WritableFile.contents_append hok⟩
  next hfailed => exact absurd hok hfailed

theorem status_of_writeIndexBlock (hok : (b.writeIndexBlock port options).1.status = none) :
    b.status = none := by
  unfold writeIndexBlock at hok
  split at hok
  next hstatus => exact hstatus
  next => exact hok

theorem status_of_writeMetaIndexBlock {handle : BlockHandle}
    (hok : (b.writeMetaIndexBlock port options handle).1.status = none) : b.status = none := by
  unfold writeMetaIndexBlock at hok
  split at hok
  next hstatus => exact hstatus
  next => exact hok

theorem status_of_writeFilterBlock (hok : (b.writeFilterBlock port).1.status = none) :
    b.status = none := by
  unfold writeFilterBlock at hok
  split at hok
  next =>
    split at hok
    next hstatus => exact hstatus
    next => exact hok
  next => exact hok

/-- An error of an earlier call is still reported at the end. -/
theorem status_of_finish (hok : (b.finish port options).status = none) : b.status = none := by
  have hflushed := status_of_writeFilterBlock (status_of_writeMetaIndexBlock
    (status_of_writeIndexBlock (writeFooter_ok hok).1))
  by_contra hfailed
  rw [TableBuilder.flush, if_pos hfailed] at hflushed
  exact hfailed hflushed

/-- The file that is left when every stage of `Finish` has written its bytes behind those of
the one before. -/
theorem Builds.describes (h : Builds port options b entries placed current index)
    (hcurrent : current.entries = []) {more : Bytes} {metaImage index' : BlockImage}
    {filterHandle : BlockHandle}
    (hfilter : ∀ f, b.filterBlock = some f → more = rawBlock port (f.2.finish f.1) .none ∧
      filterHandle = handleAt b.file.contents (f.2.finish f.1))
    (hmeta : metaImage.entries = (b.filterBlock.map fun f =>
      (ascii "filter.".toList ++ f.1.name, filterHandle.encodeTo [])).toList)
    (hindex : index'.entries =
      (indexKeys options.comparator (placed.map fun p => p.image.entries)).zip
        (encodedHandles port options placed))
    {img : TableImage} {front : Bytes}
    (himg : img = ⟨placed, ⟨metaImage, b.file.contents ++ more⟩, ⟨index', front⟩⟩)
    (hfront : front =
      b.file.contents ++ more ++ blockBytes port options.compression metaImage.bytes) :
    img.Describes port options (front ++ blockBytes port options.compression index'.bytes ++
      (img.footer port options).encodeTo) entries := by
  subst himg
  exact {
    blocks := by
      intro p hp
      rw [hfront]
      exact (((StandsIn.append (h.inFile p hp) _).append _).append _).append _
    nonempty := h.nonempty
    all := by rw [h.all, hcurrent, List.append_nil]
    metaIndex := by
      rw [hfront]
      exact ((standsIn_concat _ _).append _).append _
    index := (standsIn_concat _ _).append _
    indexEntries := hindex
    footer := ⟨_, rfl⟩
    noFilter := by
      intro hnone
      have hblock := h.filters.policy
      rw [hnone, Option.map_eq_none_iff] at hblock
      show metaImage.entries = []
      rw [hmeta, hblock]
      rfl
    filter := by
      intro policy hsome
      have hblock := h.filters.policy
      rw [hsome] at hblock
      obtain ⟨f, hf, rfl⟩ := Option.map_eq_some_iff.mp hblock
      obtain ⟨groups, added, hwrites, -, hplaced, -⟩ := h.filters.written f hf
      obtain ⟨hmore, hhandle⟩ := hfilter f hf
      rw [hf, hhandle] at hmeta
      refine ⟨f.2, b.file.contents, groups, added, ?_, hmeta, hwrites, hplaced⟩
      rw [hfront, hmore]
      exact (((standsIn_concat _ _).append _).append _).append _ }

/-- If `Finish` reports no error, the file is a table with the entries that were added. -/
theorem finish_written (hinterval : 1 ≤ options.blockRestartInterval)
    (h : Builds port options b entries placed current index)
    (hok : (b.finish port options).status = none) :
    ∃ img : TableImage,
      img.Describes port options (b.finish port options).file.contents entries := by
  unfold TableBuilder.finish at hok ⊢
  dsimp only at hok ⊢
  obtain ⟨hok₃, hfooter⟩ := writeFooter_ok hok
  have hok₂ := status_of_writeIndexBlock hok₃
  have hok₁ := status_of_writeMetaIndexBlock hok₂
  obtain ⟨placed, current, hcurrent, h⟩ := h.flush (status_of_writeFilterBlock hok₁)
  generalize b.flush port options = b at h hok hok₁ hok₂ hok₃ hfooter ⊢
  obtain ⟨file₁, more, hfile₁, hb₁, hfilter⟩ := writeFilterBlock_ok h.offset hok₁
  generalize b.writeFilterBlock port = filtered at *
  obtain ⟨metaImage, hmeta, hmetaEntries⟩ :=
    metaIndexBlock_writes (b := filtered.1) hinterval filtered.2
  obtain ⟨file₂, hfile₂, hb₂⟩ := writeMetaIndexBlock_ok hmeta (by rw [hb₁]) hok₂
  generalize filtered.1.writeMetaIndexBlock port options filtered.2 = described at *
  obtain ⟨index', hindex', hindexEntries⟩ := h.finishIndex hcurrent
  -- neither the filter block nor the metaindex block changes the index
  have hindexed : (described.1.addIndexEntry
      (options.comparator.findShortSuccessor described.1.lastKey)).indexBlock.Writes index' := by
    rw [hb₂, hb₁]
    unfold TableBuilder.addIndexEntry at hindex' ⊢
    split at hindex'
    next hpending => simpa [hpending] using hindex'
    next hpending => simpa [hpending] using hindex'
  obtain ⟨hfile₃, hhandle₃⟩ := writeIndexBlock_ok hindexed (by rw [hb₂]) hok₃
  have hcontents₁ : filtered.1.file.contents = b.file.contents ++ more := by rw [hb₁, hfile₁]
  have hcontents₂ : described.1.file.contents =
      b.file.contents ++ more ++ blockBytes port options.compression metaImage.bytes := by
    rw [hb₂, hfile₂, hcontents₁]
  have hhandle₂ : described.2 = Placed.handle port options.compression
      ⟨metaImage, b.file.contents ++ more⟩ := by rw [hb₂, hcontents₁]
  have hpolicy : filtered.1.filterBlock = b.filterBlock := by rw [hb₁]
  rw [hpolicy] at hmetaEntries
  rw [hfooter, hfile₃, hhandle₂, hhandle₃]
  let img : TableImage :=
    ⟨placed, ⟨metaImage, b.file.contents ++ more⟩, ⟨index', described.1.file.contents⟩⟩
  have himg : img = ⟨placed, ⟨metaImage, b.file.contents ++ more⟩,
    ⟨index', described.1.file.contents⟩⟩ := rfl
  exact ⟨img, h.describes hcurrent hfilter hmetaEntries hindexEntries himg hcontents₂⟩

end TableBuilder

end BloomHierarchy
