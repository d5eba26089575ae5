import BloomHierarchy.BloomPolicy
import BloomHierarchy.Lib.Cursor

/-!
# The filter block of a table (`table/filter_block`)

A table with a filter policy has one filter for every 2 KiB of its file: the
keys of the data blocks that begin there. The builder is told where each data
block begins; the block that it writes is the filters, the offsets of the
filters, and the offset of these. The flattened keys of the source are a list of
keys here.

`filterBlock_exact` says what the reader answers for a data block: what the
policy answers for a filter over a list of keys with at least the keys of that
data block. So no key of a data block is ever rejected.
-/

namespace BloomHierarchy

def kFilterBaseLg : Nat := 11
def kFilterBase : Nat := 2 ^ kFilterBaseLg

/-! ## The builder -/

structure FilterBlockBuilder where
  keys : List Bytes := []
  result : Bytes := []
  filterOffsets : List UInt32 := []
deriving Repr, DecidableEq

namespace FilterBlockBuilder

variable (policy : FilterPolicy)

def generateFilter (b : FilterBlockBuilder) : FilterBlockBuilder :=
  let filterOffsets := b.filterOffsets ++ [UInt32.ofNat b.result.length]
  if b.keys = [] then { b with filterOffsets }
  else { keys := [], result := b.result ++ policy.createFilter b.keys, filterOffsets }

/-- So many filters. -/
def generateFilters : Nat → FilterBlockBuilder → FilterBlockBuilder
  | 0, b => b
  | n + 1, b => generateFilters n (generateFilter policy b)

/-- The loop of the source ends when there are as many filters as `filter_index`, and each
round adds one. -/
def startBlock (blockOffset : Nat) (b : FilterBlockBuilder) : FilterBlockBuilder :=
  let filterIndex := blockOffset / kFilterBase
  generateFilters policy (filterIndex - b.filterOffsets.length) b

def addKey (b : FilterBlockBuilder) (key : Bytes) : FilterBlockBuilder :=
  { b with keys := b.keys ++ [key] }

def finish (b : FilterBlockBuilder) : Bytes :=
  let b := if b.keys = [] then b else generateFilter policy b
  let arrayOffset := UInt32.ofNat b.result.length
  putFixed32 (b.filterOffsets.foldl putFixed32 b.result) arrayOffset ++
    [UInt8.ofNat kFilterBaseLg]

end FilterBlockBuilder

/-! ## The reader -/

structure FilterBlockReader where
  data : Bytes := []
  offset : Nat := 0
  num : Nat := 0
  baseLg : Nat := 0
deriving Repr, DecidableEq

namespace FilterBlockReader

def ofContents (contents : Bytes) : FilterBlockReader :=
  let n := contents.length
  -- one byte for the base and four for the start of the offsets
  if n < 5 then {}
  else
    let baseLg := (contents.getD (n - 1) 0).toNat
    let lastWord := fixed32At contents (n - 5)
    if lastWord > n - 5 then { baseLg }
    else { data := contents, offset := lastWord, num := (n - 5 - lastWord) / 4, baseLg }

def keyMayMatch (policy : FilterPolicy) (r : FilterBlockReader) (blockOffset : Nat)
    (key : Bytes) : Bool :=
  let index := blockOffset / 2 ^ r.baseLg
  if index < r.num then
    let start := fixed32At r.data (r.offset + index * 4)
    let limit := fixed32At r.data (r.offset + index * 4 + 4)
    if start ≤ limit ∧ limit ≤ r.offset then
      policy.keyMayMatch key ((r.data.drop start).take (limit - start))
    else
      -- empty filters do not match any keys, errors are treated as potential matches
      !decide (start = limit)
  else true

end FilterBlockReader

/-! ## Filters behind each other -/

open Cursor (start)

/-- The filters, where they begin, and where they end. -/
def filterBytes (filters : List Bytes) : Bytes :=
  filters.flatten ++
    (((List.range (filters.length + 1)).map fun i => UInt32.ofNat (start id filters i)).flatMap
      encodeFixed32 ++ [UInt8.ofNat kFilterBaseLg])

section Reader
variable {policy : FilterPolicy} {filters : List Bytes}

theorem length_filterBytes (filters : List Bytes) :
    (filterBytes filters).length = filters.flatten.length + (filters.length * 4 + 5) := by
  rw [filterBytes, List.length_append, List.length_append, length_flatMap_encodeFixed32]
  simp
  omega

/-- The offset of filter `i`, or the end of the filters. -/
theorem fixed32At_filterBytes (hsmall : (filterBytes filters).length < 2 ^ 32) {i : Nat}
    (hi : i ≤ filters.length) :
    fixed32At (filterBytes filters) (filters.flatten.length + i * 4) = start id filters i := by
  have hr : i < ((List.range (filters.length + 1)).map fun i =>
      UInt32.ofNat (start id filters i)).length := by
    simp
    omega
  have hfits : start id filters i < 2 ^ 32 := by
    have hle := Cursor.start_le id filters i
    rw [List.flatMap_id] at hle
    rw [length_filterBytes] at hsmall
    omega
  rw [filterBytes, fixed32At_append hr]
  simp only [List.getElem_map, List.getElem_range]
  exact UInt32.toNat_ofNat_of_lt' hfits

theorem ofContents_filterBytes (hsmall : (filterBytes filters).length < 2 ^ 32) :
    FilterBlockReader.ofContents (filterBytes filters) =
      { data := filterBytes filters, offset := filters.flatten.length, num := filters.length,
        baseLg := kFilterBaseLg } := by
  have hlen := length_filterBytes filters
  have hbase : (filterBytes filters).getD ((filterBytes filters).length - 1) 0 =
      UInt8.ofNat kFilterBaseLg := by
    rw [filterBytes, ← List.append_assoc]
    simp
  have hword : fixed32At (filterBytes filters) ((filterBytes filters).length - 5) =
      filters.flatten.length := by
    have h := fixed32At_filterBytes hsmall (Nat.le_refl filters.length)
    rw [Cursor.start_length, List.flatMap_id] at h
    rw [hlen, show filters.flatten.length + (filters.length * 4 + 5) - 5 =
      filters.flatten.length + filters.length * 4 by omega, h]
  rw [FilterBlockReader.ofContents]
  dsimp only
  rw [if_neg (by omega), hword, if_neg (by omega), hbase]
  congr 1
  omega

/-- The reader asks the policy about the filter for the place where the block begins. -/
theorem keyMayMatch_filterBytes (hsmall : (filterBytes filters).length < 2 ^ 32)
    {blockOffset : Nat} (h : blockOffset / kFilterBase < filters.length) (key : Bytes) :
    (FilterBlockReader.ofContents (filterBytes filters)).keyMayMatch policy blockOffset key =
      policy.keyMayMatch key filters[blockOffset / kFilterBase] := by
  have hsucc : start id filters (blockOffset / kFilterBase + 1) =
      start id filters (blockOffset / kFilterBase) +
        (filters[blockOffset / kFilterBase]).length := Cursor.start_succ h
  have hstart := fixed32At_filterBytes hsmall h.le
  have hlimit := fixed32At_filterBytes hsmall (Nat.succ_le_of_lt h)
  have hend := Cursor.start_le id filters (blockOffset / kFilterBase + 1)
  rw [List.flatMap_id] at hend
  have hslice : ((filterBytes filters).drop (start id filters (blockOffset / kFilterBase))).take
      (filters[blockOffset / kFilterBase]).length = filters[blockOffset / kFilterBase] := by
    have hsplit := Cursor.flatMap_split id h
    rw [List.flatMap_id] at hsplit
    rw [filterBytes, hsplit, List.append_assoc, start, List.drop_left, List.append_assoc]
    exact List.take_left
  rw [Nat.succ_eq_add_one, Nat.succ_mul, ← Nat.add_assoc] at hlimit
  rw [ofContents_filterBytes hsmall, FilterBlockReader.keyMayMatch]
  dsimp only
  rw [← kFilterBase, if_pos h, hstart, hlimit, hsucc, if_pos ⟨Nat.le_add_right _ _, hsucc ▸ hend⟩,
    Nat.add_sub_cancel_left, hslice]

end Reader

/-! ## What the builder writes -/

namespace FilterBlockBuilder

variable {policy : FilterPolicy}

/-- The filter over a group of keys; there is none without keys. -/
def filterOf (policy : FilterPolicy) (group : List Bytes) : Bytes :=
  if group = [] then [] else policy.createFilter group

/-- The builder has written the filters over `groups`. Every key that was added for a data
block, with the offset of the block, is in the group for that offset or waits for it. -/
structure Writes (policy : FilterPolicy) (b : FilterBlockBuilder) (groups : List (List Bytes))
    (added : List (Nat × Bytes)) : Prop where
  result : b.result = (groups.map (filterOf policy)).flatten
  offsets : b.filterOffsets = (List.range groups.length).map fun i =>
    UInt32.ofNat (start id (groups.map (filterOf policy)) i)
  holds : ∀ a ∈ added, (a.1 / kFilterBase = groups.length ∧ a.2 ∈ b.keys) ∨
    ∃ group, groups[a.1 / kFilterBase]? = some group ∧ a.2 ∈ group

theorem Writes.length {b : FilterBlockBuilder} {groups : List (List Bytes)}
    {added : List (Nat × Bytes)} (h : Writes policy b groups added) :
    b.filterOffsets.length = groups.length := by
  rw [h.offsets]
  simp

theorem writes_nil (policy : FilterPolicy) : Writes policy {} [] [] where
  result := rfl
  offsets := rfl
  holds := by simp

theorem offsets_append (filters : List Bytes) (f : Bytes) :
    ((List.range filters.length).map fun i => UInt32.ofNat (start id filters i)) ++
        [UInt32.ofNat filters.flatten.length] =
      (List.range (filters.length + 1)).map fun i =>
        UInt32.ofNat (start id (filters ++ [f]) i) := by
  have hsame {i : Nat} (hi : i ≤ filters.length) :
      start id (filters ++ [f]) i = start id filters i := by
    rw [start, start, List.take_append_of_le_length hi]
  rw [List.range_succ, List.map_append, List.map_singleton, hsame (Nat.le_refl _),
    Cursor.start_length, List.flatMap_id]
  congr 1
  refine List.map_congr_left fun i hi => ?_
  rw [hsame (List.mem_range.mp hi).le]

/-- In both branches the keys that wait become a group of their own. -/
theorem generateFilter_eq (b : FilterBlockBuilder) :
    b.generateFilter policy =
      { keys := []
        result := b.result ++ filterOf policy b.keys
        filterOffsets := b.filterOffsets ++ [UInt32.ofNat b.result.length] } := by
  unfold FilterBlockBuilder.generateFilter filterOf
  dsimp only
  split
  next hnone => simp [hnone]
  next => rfl

theorem Writes.generateFilter {b : FilterBlockBuilder} {groups : List (List Bytes)}
    {added : List (Nat × Bytes)} (h : Writes policy b groups added) :
    Writes policy (b.generateFilter policy) (groups ++ [b.keys]) added := by
  rw [generateFilter_eq]
  refine ⟨?_, ?_, fun a ha => .inr ?_⟩
  · rw [h.result]
    simp
  · rw [h.offsets, h.result, List.map_append, List.map_singleton, List.length_append,
      List.length_singleton]
    have happend := offsets_append (groups.map (filterOf policy)) (filterOf policy b.keys)
    rwa [List.length_map] at happend
  · rcases h.holds a ha with ⟨hindex, hwaits⟩ | ⟨group, hget, hmem⟩
    · exact ⟨b.keys, by rw [hindex, List.getElem?_concat_length], hwaits⟩
    · obtain ⟨hlt, -⟩ := List.getElem?_eq_some_iff.mp hget
      exact ⟨group, by rwa [List.getElem?_append_left hlt], hmem⟩

theorem Writes.generateFilters {b : FilterBlockBuilder} {groups : List (List Bytes)}
    {added : List (Nat × Bytes)} (h : Writes policy b groups added) (n : Nat) :
    ∃ groups', Writes policy (FilterBlockBuilder.generateFilters policy n b) groups' added ∧
      groups'.length = groups.length + n := by
  induction n generalizing b groups with
  | zero => exact ⟨groups, h, rfl⟩
  | succ n ih =>
    obtain ⟨groups', h', hlen⟩ := ih h.generateFilter
    refine ⟨groups', h', ?_⟩
    rw [hlen, List.length_append, List.length_singleton]
    omega

/-- The offsets of data blocks do not go back. -/
theorem Writes.startBlock {b : FilterBlockBuilder} {groups : List (List Bytes)}
    {added : List (Nat × Bytes)} (h : Writes policy b groups added) {blockOffset : Nat}
    (hforward : groups.length ≤ blockOffset / kFilterBase) :
    ∃ groups', Writes policy (b.startBlock policy blockOffset) groups' added ∧
      groups'.length = blockOffset / kFilterBase := by
  obtain ⟨groups', h', hlen⟩ :=
    h.generateFilters (blockOffset / kFilterBase - b.filterOffsets.length)
  refine ⟨groups', h', ?_⟩
  rw [hlen, h.length]
  omega

theorem Writes.addKey {b : FilterBlockBuilder} {groups : List (List Bytes)}
    {added : List (Nat × Bytes)} (h : Writes policy b groups added) {blockOffset : Nat}
    (hblock : groups.length = blockOffset / kFilterBase) (key : Bytes) :
    Writes policy (b.addKey key) groups ((blockOffset, key) :: added) where
  result := h.result
  offsets := h.offsets
  holds := by
    intro a ha
    rcases List.mem_cons.mp ha with rfl | ha
    · exact .inl ⟨hblock.symm, List.mem_append_right _ List.mem_cons_self⟩
    · exact (h.holds a ha).imp_left fun ⟨hindex, hwaits⟩ =>
        ⟨hindex, List.mem_append_left _ hwaits⟩

/-- The finished block has every key in the group for its data block. -/
theorem Writes.finish {b : FilterBlockBuilder} {groups : List (List Bytes)}
    {added : List (Nat × Bytes)} (h : Writes policy b groups added) :
    ∃ groups' : List (List Bytes), b.finish policy = filterBytes (groups'.map (filterOf policy)) ∧
      ∀ a ∈ added, ∃ group, groups'[a.1 / kFilterBase]? = some group ∧ a.2 ∈ group := by
  have hbytes {b : FilterBlockBuilder} {groups : List (List Bytes)}
      (h : Writes policy b groups added) :
      putFixed32 (b.filterOffsets.foldl putFixed32 b.result) (UInt32.ofNat b.result.length) ++
        [UInt8.ofNat kFilterBaseLg] = filterBytes (groups.map (filterOf policy)) := by
    rw [foldl_putFixed32, putFixed32, h.offsets, h.result, filterBytes, List.range_succ,
      List.map_append, List.map_singleton, Cursor.start_length, List.flatMap_id, List.length_map]
    simp
  unfold FilterBlockBuilder.finish
  dsimp only
  split
  next hnone =>
    refine ⟨groups, hbytes h, fun a ha => ?_⟩
    rcases h.holds a ha with ⟨-, hwaits⟩ | hheld
    · rw [hnone] at hwaits
      cases hwaits
    · exact hheld
  next =>
    refine ⟨_, hbytes h.generateFilter, fun a ha => ?_⟩
    rcases h.generateFilter.holds a ha with ⟨-, hwaits⟩ | hheld
    · rw [generateFilter_eq] at hwaits
      cases hwaits
    · exact hheld

/-- The reader answers for a data block what the policy answers for a filter over a group
with all keys of the block. -/
theorem Writes.keyMayMatch {b : FilterBlockBuilder} {groups : List (List Bytes)}
    {added : List (Nat × Bytes)} (h : Writes policy b groups added)
    (hsmall : (b.finish policy).length < 2 ^ 32) {blockOffset : Nat} {key : Bytes}
    (hkey : (blockOffset, key) ∈ added) :
    ∃ group, (∀ key', (blockOffset, key') ∈ added → key' ∈ group) ∧
      ∀ target, (FilterBlockReader.ofContents (b.finish policy)).keyMayMatch policy blockOffset
        target = policy.keyMayMatch target (policy.createFilter group) := by
  obtain ⟨groups', hbytes, hheld⟩ := h.finish
  obtain ⟨group, hgroup, hmem⟩ := hheld _ hkey
  obtain ⟨hindex, hget⟩ := List.getElem?_eq_some_iff.mp hgroup
  refine ⟨group, fun key' hkey' => ?_, fun target => ?_⟩
  · obtain ⟨group', hgroup', hmem'⟩ := hheld _ hkey'
    rw [hgroup] at hgroup'
    cases hgroup'
    exact hmem'
  · have hne : group ≠ [] := List.ne_nil_of_mem hmem
    rw [hbytes] at hsmall ⊢
    rw [keyMayMatch_filterBytes hsmall (by rwa [List.length_map]), List.getElem_map, hget, filterOf,
      if_neg hne]

end FilterBlockBuilder

/-! ## A run over data blocks -/

/-- What a table builder does with its filter block: each data block with its offset. -/
def addBlocks (policy : FilterPolicy) (b : FilterBlockBuilder) (blocks : List (Nat × List Bytes)) :
    FilterBlockBuilder :=
  blocks.foldl (fun b block => block.2.foldl .addKey (b.startBlock policy block.1)) b

namespace FilterBlockBuilder

variable {policy : FilterPolicy}

theorem Writes.addKeys {b : FilterBlockBuilder} {groups : List (List Bytes)}
    {added : List (Nat × Bytes)} (h : Writes policy b groups added) {blockOffset : Nat}
    (hblock : groups.length = blockOffset / kFilterBase) (keys : List Bytes) :
    ∃ added', Writes policy (keys.foldl .addKey b) groups added' ∧ added ⊆ added' ∧
      ∀ key ∈ keys, (blockOffset, key) ∈ added' := by
  induction keys generalizing b added with
  | nil => exact ⟨added, h, List.Subset.refl _, by simp⟩
  | cons key keys ih =>
    obtain ⟨added', h', hsub, hkeys⟩ := ih (h.addKey hblock key)
    refine ⟨added', h', fun a ha => hsub (List.mem_cons_of_mem _ ha), fun key' hkey' => ?_⟩
    rcases List.mem_cons.mp hkey' with rfl | hkey'
    · exact hsub List.mem_cons_self
    · exact hkeys key' hkey'

theorem Writes.addBlocks {b : FilterBlockBuilder} {groups : List (List Bytes)}
    {added : List (Nat × Bytes)} (h : Writes policy b groups added)
    {blocks : List (Nat × List Bytes)}
    (hforward : ∀ block ∈ blocks, groups.length ≤ block.1 / kFilterBase)
    (horder : blocks.Pairwise fun x y => x.1 ≤ y.1) :
    ∃ groups' added', Writes policy (BloomHierarchy.addBlocks policy b blocks) groups' added' ∧
      added ⊆ added' ∧ ∀ block ∈ blocks, ∀ key ∈ block.2, (block.1, key) ∈ added' := by
  induction blocks generalizing b groups added with
  | nil => exact ⟨groups, added, h, List.Subset.refl _, by simp⟩
  | cons block blocks ih =>
    obtain ⟨groups₁, h₁, hlen⟩ := h.startBlock (hforward block List.mem_cons_self)
    obtain ⟨added₁, h₂, hsub₁, hkeys⟩ := h₁.addKeys hlen block.2
    obtain ⟨hbefore, horder⟩ := List.pairwise_cons.mp horder
    obtain ⟨groups', added', h', hsub', hblocks⟩ := ih h₂ (fun block' hblock' => by
      rw [hlen]
      exact Nat.div_le_div_right (hbefore block' hblock')) horder
    refine ⟨groups', added', h', fun a ha => hsub' (hsub₁ ha), fun block' hblock' key hkey => ?_⟩
    rcases List.mem_cons.mp hblock' with rfl | hblock'
    · exact hsub' (hkeys key hkey)
    · exact hblocks block' hblock' key hkey

end FilterBlockBuilder

/-- Read back, the filter block answers for a data block what the policy answers for a filter
over a group with all keys of the block. In particular it rejects none of them. -/
theorem filterBlock_exact (policy : FilterPolicy) {blocks : List (Nat × List Bytes)}
    (horder : blocks.Pairwise fun x y => x.1 ≤ y.1)
    (hsmall : ((addBlocks policy {} blocks).finish policy).length < 2 ^ 32)
    {block : Nat × List Bytes} (hblock : block ∈ blocks) (hne : block.2 ≠ []) :
    ∃ group, (∀ key ∈ block.2, key ∈ group) ∧
      (∀ target, (FilterBlockReader.ofContents ((addBlocks policy {} blocks).finish policy)).keyMayMatch
        policy block.1 target = policy.keyMayMatch target (policy.createFilter group)) ∧
      ∀ key ∈ block.2, (FilterBlockReader.ofContents
        ((addBlocks policy {} blocks).finish policy)).keyMayMatch policy block.1 key = true := by
  obtain ⟨groups, added, h, -, hadded⟩ :=
    (FilterBlockBuilder.writes_nil policy).addBlocks (fun _ _ => Nat.zero_le _) horder
  obtain ⟨key, hkey⟩ := List.exists_mem_of_ne_nil _ hne
  obtain ⟨group, hgroup, hread⟩ := h.keyMayMatch hsmall (hadded block hblock key hkey)
  have hall : ∀ key ∈ block.2, key ∈ group := fun key' hkey' =>
    hgroup key' (hadded block hblock key' hkey')
  refine ⟨group, hall, hread, fun key' hkey' => ?_⟩
  rw [hread]
  exact policy.mayMatch_of_mem (hall key' hkey')

/-- Two data blocks with filters of their own. -/
theorem filterBlock_exact_two :
    ∃ group, (∀ key ∈ [[2]], key ∈ group) ∧
      (∀ target, (FilterBlockReader.ofContents ((addBlocks (bloomFilterPolicy (.new 10)) {}
          [(0, [[1]]), (5000, [[2]])]).finish (bloomFilterPolicy (.new 10)))).keyMayMatch
        (bloomFilterPolicy (.new 10)) 5000 target =
          (bloomFilterPolicy (.new 10)).keyMayMatch target
            ((bloomFilterPolicy (.new 10)).createFilter group)) ∧
      ∀ key ∈ [[2]], (FilterBlockReader.ofContents ((addBlocks (bloomFilterPolicy (.new 10)) {}
          [(0, [[1]]), (5000, [[2]])]).finish (bloomFilterPolicy (.new 10)))).keyMayMatch
        (bloomFilterPolicy (.new 10)) 5000 key = true :=
  have horder : [(0, [[1]]), (5000, [([2] : Bytes)])].Pairwise fun x y => x.1 ≤ y.1 := by decide
  have hblock : (5000, [[2]]) ∈ [(0, [[1]]), (5000, [([2] : Bytes)])] := by decide
  filterBlock_exact (bloomFilterPolicy (.new 10)) horder (by decide +kernel) hblock (by decide)

end BloomHierarchy
