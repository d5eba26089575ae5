import BloomHierarchy.BlockIterator

/-!
# The iterator of a well-formed block

Over a well-formed block `Block::Iter` behaves as a position in the list of its
entries, for every sequence of `SeekToFirst`, `SeekToLast`, `Seek`, `Next` and
`Prev` (`BlockIterator.simulates`, `BlockIterator.seeks`). What the iterator
knows when it stands on an entry is `StandsOn`; what `ParseNextKey` needs before
it reads one is `Ready`. All loops of the iterator go from one to the other,
entry by entry.

`Seek` starts its binary search from where the iterator stands. The index of the
restart point that it uses for that is one too low when `Next` has just entered
a new restart block (the loop in `ParseNextKey` compares with `<`). What `Seek`
needs is only that the linear search does not start behind the entry it looks
for, and that holds of both indices.

`block_moves` puts builder and iterator together.
-/

namespace BloomHierarchy

namespace BlockImage

variable {img : BlockImage}

/-! ## What the iterator knows -/

/-- An iterator of the block that has met no error. -/
structure Over (img : BlockImage) (it : BlockIter) : Prop where
  data : it.data = img.bytes
  restarts : it.restarts = img.offset img.items.length
  numRestarts : it.numRestarts = img.points.length
  status : it.status = none

/-- `ParseNextKey` would read entry `i` now, or find the end. -/
structure Ready (img : BlockImage) (it : BlockIter) (i : Nat) : Prop extends Over img it where
  le : i ≤ img.items.length
  next : it.nextEntryOffset = img.offset i
  shares : ∀ h : i < img.items.length, img.items[i].Shares it.key
  point : ∃ p, img.points[it.restartIndex]? = some p ∧ p ≤ i

/-- The iterator shows entry `i`. -/
structure StandsOn (img : BlockImage) (it : BlockIter) (i : Nat) : Prop extends Over img it where
  lt : i < img.items.length
  current : it.current = img.offset i
  key : it.key = img.items[i].key
  value : it.value = img.items[i].value
  next : it.nextEntryOffset = img.offset (i + 1)
  point : ∃ p, img.points[it.restartIndex]? = some p ∧ p ≤ i

/-- The iterator is not valid. -/
structure AtEnd (img : BlockImage) (it : BlockIter) : Prop extends Over img it where
  current : it.current = it.restarts

/-- The position of the iterator among the entries. -/
def Position (img : BlockImage) (it : BlockIter) (i : Nat) : Prop :=
  StandsOn img it i ∨ (i = img.items.length ∧ AtEnd img it)

theorem Position.over {it : BlockIter} {i : Nat} (h : img.Position it i) : Over img it :=
  h.elim (·.toOver) (·.2.toOver)

theorem Position.le {it : BlockIter} {i : Nat} (h : img.Position it i) : i ≤ img.items.length := by
  rcases h with h | ⟨rfl, -⟩
  · exact h.lt.le
  · exact Nat.le_refl _

theorem Position.standsOn {it : BlockIter} {i : Nat} (h : img.Position it i)
    (hi : i < img.items.length) : StandsOn img it i := by
  rcases h with h | ⟨rfl, -⟩
  · exact h
  · exact absurd hi (Nat.lt_irrefl _)

theorem Position.valid_iff {it : BlockIter} {i : Nat} (h : img.Position it i) :
    it.valid = true ↔ i < img.items.length := by
  rw [BlockIter.valid, decide_eq_true_iff]
  rcases h with h | ⟨rfl, h⟩
  · rw [h.current, h.restarts]
    exact img.offset_lt_iff h.lt.le (Nat.le_refl _)
  · rw [h.current]
    simp

theorem finalKey_take_succ {i : Nat} (hi : i < img.items.length) :
    finalKey (img.items.take (i + 1)) = img.items[i].key := by
  rw [List.take_succ_eq_append_getElem hi, finalKey_append]

theorem StandsOn.ready {it : BlockIter} {i : Nat} (h : img.StandsOn it i) :
    img.Ready it (i + 1) where
  toOver := h.toOver
  le := h.lt
  next := h.next
  shares := by
    intro hi
    have hshares := img.shares (i + 1) hi
    rwa [finalKey_take_succ h.lt, ← h.key] at hshares
  point := by
    obtain ⟨p, hp, hle⟩ := h.point
    exact ⟨p, hp, Nat.le_succ_of_le hle⟩

theorem first_point (h : 0 < img.points.length) : img.points[0] = 0 :=
  Option.some.inj ((List.getElem?_eq_getElem h).symm.trans img.first)

theorem length_entries : img.entries.length = img.items.length := by
  rw [entries, List.length_map]

theorem getElem_entries {i : Nat} (hi : i < img.items.length) (hi' : i < img.entries.length) :
    img.entries[i] = (img.items[i].key, img.items[i].value) := by
  simp [entries]

/-! ## Reading the next entry -/

section Small
variable (hsmall : img.bytes.length < 2 ^ 32)
include hsmall

theorem getRestartPoint_eq {it : BlockIter} (h : img.Over it) {r : Nat}
    (hr : r < img.points.length) : it.getRestartPoint r = img.offset img.points[r] := by
  rw [BlockIter.getRestartPoint, h.data, h.restarts, fixed32At_restart hsmall hr]

/-- The loop over the restart points stops in front of the entry. -/
theorem point_advance {it : BlockIter} (h : img.Over it) {i : Nat} (hi : i ≤ img.items.length)
    (hcurrent : it.current = img.offset i) {index : Nat}
    (hpoint : ∃ p, img.points[index]? = some p ∧ p ≤ i) :
    ∃ p, img.points[it.advanceRestartIndex index]? = some p ∧ p ≤ i := by
  fun_induction BlockIter.advanceRestartIndex it index with
  | case1 index hgo ih =>
    refine ih ?_
    have hr : index + 1 < img.points.length := by
      rw [← h.numRestarts]
      exact hgo.1
    refine ⟨img.points[index + 1], List.getElem?_eq_getElem hr, ?_⟩
    have hbefore := hgo.2
    rw [getRestartPoint_eq hsmall h hr, hcurrent,
      img.offset_lt_iff (img.point_le (List.getElem_mem hr)) hi] at hbefore
    exact hbefore.le
  | case2 index hstop => exact hpoint

omit hsmall in
/-- The bytes from an entry on, up to the restart points. -/
theorem bytesFrom_offset {it : BlockIter} (h : img.Over it) (i : Nat) :
    it.bytesFrom (img.offset i) = encodeAll (img.items.drop i) := by
  rw [BlockIter.bytesFrom, h.data, h.restarts, take_bytes, drop_entries]

theorem decodeEntry_offset {it : BlockIter} (h : img.Over it) {i : Nat}
    (hi : i < img.items.length) :
    decodeEntry (it.bytesFrom (img.offset i)) =
      some { shared := UInt32.ofNat img.items[i].shared
             nonShared := UInt32.ofNat (img.items[i].key.length - img.items[i].shared)
             valueLength := UInt32.ofNat img.items[i].value.length
             p := img.items[i].payload ++ encodeAll (img.items.drop (i + 1)) } := by
  rw [bytesFrom_offset h, encodeAll_drop hi]
  refine BlockEntry.decodeEntry_encode _ ?_
  have hlen := congrArg List.length (encodeAll_take_append_drop img.items i)
  have hbytes := img.length_bytes
  rw [img.offset_length] at hbytes
  rw [← encodeAll_drop hi]
  rw [List.length_append] at hlen
  omega

omit hsmall in
/-- A key is made of bytes in front of the place where it ends. -/
theorem length_finalKey_le {i : Nat} (hi : i ≤ img.items.length) :
    (finalKey (img.items.take i)).length ≤ img.offset i := by
  induction i with
  | zero => simp [finalKey]
  | succ i ih =>
    have hprev := ih (Nat.le_of_succ_le hi)
    have hshared := (img.shares i hi).1
    have hencode : img.items[i].key.length - img.items[i].shared ≤
        img.items[i].encode.length := by
      simp only [BlockEntry.encode, BlockEntry.payload, List.length_append, List.length_drop]
      omega
    rw [finalKey_take_succ hi, img.offset_succ hi]
    omega

/-- The lengths of an entry survive the 32 bits they are stored in. -/
theorem lengths_fit {i : Nat} (hi : i < img.items.length) :
    (UInt32.ofNat img.items[i].shared).toNat = img.items[i].shared ∧
      (UInt32.ofNat (img.items[i].key.length - img.items[i].shared)).toNat =
        img.items[i].key.length - img.items[i].shared ∧
      (UInt32.ofNat img.items[i].value.length).toNat = img.items[i].value.length := by
  have hend := img.offset_le (Nat.succ_le_of_lt hi) (Nat.le_refl _)
  have hencode : img.items[i].encode.length = img.items[i].head.length +
      (img.items[i].key.length - img.items[i].shared + img.items[i].value.length) := by
    simp only [BlockEntry.encode, BlockEntry.payload, List.length_append, List.length_drop]
  have hshared := (img.shares i hi).1
  have hprev := img.length_finalKey_le hi.le
  rw [Nat.succ_eq_add_one, img.offset_succ hi] at hend
  rw [img.length_bytes] at hsmall
  refine ⟨UInt32.toNat_ofNat_of_lt' ?_, UInt32.toNat_ofNat_of_lt' ?_,
    UInt32.toNat_ofNat_of_lt' ?_⟩
  · exact Nat.lt_of_le_of_lt (by omega) hsmall
  · exact Nat.lt_of_le_of_lt (by omega) hsmall
  · exact Nat.lt_of_le_of_lt (by omega) hsmall

omit hsmall in
/-- The value of an entry stands behind the rest of its key. -/
theorem value_at {i : Nat} (hi : i < img.items.length) :
    (img.bytes.drop (img.offset i + img.items[i].head.length +
      (img.items[i].key.length - img.items[i].shared))).take img.items[i].value.length =
        img.items[i].value := by
  let e := img.items[i]
  have hbytes : img.bytes = (encodeAll (img.items.take i) ++ (e.head ++ e.key.drop e.shared)) ++
      (e.value ++ (encodeAll (img.items.drop (i + 1)) ++ (img.restarts.flatMap encodeFixed32 ++
        encodeFixed32 (UInt32.ofNat img.points.length)))) := by
    rw [bytes, encodeAll_take_append_drop img.items i, encodeAll_drop hi]
    simp only [BlockEntry.encode, BlockEntry.payload, List.append_assoc, e]
  have hfront : (encodeAll (img.items.take i) ++ (e.head ++ e.key.drop e.shared)).length =
      img.offset i + e.head.length + (e.key.length - e.shared) := by
    simp only [List.length_append, List.length_drop, offset, offsetOf]
    omega
  rw [hbytes, List.drop_left' hfront, List.take_left' rfl]

theorem Ready.parse {it : BlockIter} {i : Nat} (h : img.Ready it i) (hi : i < img.items.length) :
    ∃ it', it.parseNextKey = (it', true) ∧ img.StandsOn it' i := by
  have hover : img.Over { it with current := it.nextEntryOffset } :=
    ⟨h.data, h.restarts, h.numRestarts, h.status⟩
  obtain ⟨hshared, hnonShared, hvalue⟩ := lengths_fit hsmall hi
  have hinside : ¬ it.restarts ≤ it.nextEntryOffset := by
    rw [h.restarts, h.next, Nat.not_le]
    exact img.offset_lt hi (Nat.le_refl _)
  have hdecode := decodeEntry_offset hsmall hover hi
  rw [← h.next] at hdecode
  have hkey : ¬ it.key.length < img.items[i].shared := by
    have := (h.shares hi).1
    omega
  -- where the key begins, counted from the restart points
  have hp : it.restarts - (img.items[i].payload ++ encodeAll (img.items.drop (i + 1))).length =
      img.offset i + img.items[i].head.length := by
    have hlen := congrArg List.length (encodeAll_take_append_drop img.items i)
    rw [encodeAll_drop hi, BlockEntry.encode, ← img.offset_length, ← h.restarts] at hlen
    simp only [List.length_append] at hlen ⊢
    rw [offset, offsetOf]
    omega
  let it' : BlockIter :=
    { it with
      current := it.nextEntryOffset
      key := img.items[i].key
      valueOffset := img.offset i + img.items[i].head.length +
        (img.items[i].key.length - img.items[i].shared)
      valueSize := img.items[i].value.length }
  have hparse : it.parseNextKey =
      ({ it' with restartIndex := it'.advanceRestartIndex it'.restartIndex }, true) := by
    have htake : it.key.take img.items[i].shared ++ (img.items[i].payload ++
        encodeAll (img.items.drop (i + 1))).take
          (img.items[i].key.length - img.items[i].shared) = img.items[i].key := by
      rw [BlockEntry.payload, List.append_assoc, List.take_left' List.length_drop]
      exact (h.shares hi).append
    rw [BlockIter.parseNextKey]
    dsimp only
    rw [if_neg hinside, hdecode]
    dsimp only
    rw [hshared, hnonShared, hvalue, if_neg hkey, hp, htake]
  refine ⟨_, hparse, ?_⟩
  have hover' : img.Over it' := ⟨h.data, h.restarts, h.numRestarts, h.status⟩
  refine ⟨⟨h.data, h.restarts, h.numRestarts, h.status⟩, hi, h.next, rfl, ?_, ?_, ?_⟩
  · show (it.data.drop _).take _ = _
    rw [h.data]
    exact img.value_at hi
  · show img.offset i + img.items[i].head.length +
      (img.items[i].key.length - img.items[i].shared) + img.items[i].value.length = _
    rw [img.offset_succ hi]
    simp only [BlockEntry.encode, BlockEntry.payload, List.length_append, List.length_drop]
    omega
  · exact point_advance hsmall hover' hi.le h.next h.point

omit hsmall in
theorem Ready.parse_end {it : BlockIter} (h : img.Ready it img.items.length) :
    ∃ it', it.parseNextKey = (it', false) ∧ img.AtEnd it' := by
  refine ⟨{ it with current := it.restarts, restartIndex := it.numRestarts }, ?_,
    ⟨h.data, h.restarts, h.numRestarts, h.status⟩, rfl⟩
  have hend : it.restarts ≤ it.nextEntryOffset := by rw [h.restarts, h.next]
  rw [BlockIter.parseNextKey]
  dsimp only
  rw [if_pos hend]

theorem ready_restartPoint {it : BlockIter} (h : img.Over it) {r : Nat}
    (hr : r < img.points.length) : img.Ready (it.seekToRestartPoint r) img.points[r] where
  data := h.data
  restarts := h.restarts
  numRestarts := h.numRestarts
  status := h.status
  le := img.point_le (List.getElem_mem hr)
  next := getRestartPoint_eq hsmall h hr
  shares := by
    intro hi
    have hwhole := img.whole _ (List.getElem_mem hr) hi
    refine ⟨by rw [hwhole]; exact Nat.zero_le _, by rw [hwhole, List.take_zero, List.take_zero]⟩
  point := ⟨img.points[r], List.getElem?_eq_getElem hr, Nat.le_refl _⟩

/-! ## The loops -/

/-- From an entry to the last one in front of another one. -/
theorem Ready.parseUntil {it : BlockIter} {i j : Nat} (h : img.Ready it i) (hij : i < j)
    (hj : j ≤ img.items.length) : img.StandsOn (it.parseUntil (img.offset j)) (j - 1) := by
  induction hk : j - i generalizing it i with
  | zero => omega
  | succ k ih =>
    obtain ⟨it', hparse, hstands⟩ := h.parse hsmall (by omega)
    rw [BlockIter.parseUntil_of_true hparse]
    split
    next hmore =>
      rw [hstands.next, img.offset_lt_iff hstands.lt hj] at hmore
      exact ih hstands.ready hmore (by omega)
    next hlast =>
      rw [hstands.next, img.offset_lt_iff hstands.lt hj] at hlast
      have hsame : i = j - 1 := by omega
      rwa [← hsame]

/-- The last entry, or the end of a block without entries. -/
theorem position_seekToLast {it : BlockIter} (h : img.Over it) :
    img.Position it.seekToLast (img.items.length - 1) := by
  have hpos := img.points_pos
  have hr : img.points.length - 1 < img.points.length := by omega
  have hready := ready_restartPoint hsmall h hr
  rw [BlockIter.seekToLast, h.restarts, h.numRestarts]
  by_cases hlast : img.points[img.points.length - 1] < img.items.length
  · exact .inl (hready.parseUntil hsmall hlast (Nat.le_refl _))
  · -- only the first restart point of an empty block is no entry
    have hp := hready.le
    have hempty : img.items.length = 0 := by
      rcases img.inside _ (List.getElem_mem hr) with hzero | hinside
      · omega
      · exact absurd hinside hlast
    have hend : img.points[img.points.length - 1] = img.items.length := by omega
    rw [hend] at hready
    obtain ⟨it', hparse, hatEnd⟩ := hready.parse_end
    rw [BlockIter.parseUntil_of_false hparse]
    exact .inr ⟨by omega, hatEnd⟩

theorem position_parse {it : BlockIter} {i : Nat} (h : img.Ready it i) :
    img.Position it.parseNextKey.1 i := by
  rcases Nat.lt_or_eq_of_le h.le with hi | rfl
  · obtain ⟨it', hparse, hstands⟩ := h.parse hsmall hi
    rw [hparse]
    exact .inl hstands
  · obtain ⟨it', hparse, hatEnd⟩ := h.parse_end
    rw [hparse]
    exact .inr ⟨rfl, hatEnd⟩

theorem position_seekToFirst {it : BlockIter} (h : img.Over it) :
    img.Position it.seekToFirst 0 := by
  have hpos := img.points_pos
  have hready := ready_restartPoint hsmall h hpos
  rw [img.first_point hpos] at hready
  exact position_parse hsmall hready

/-! ## Backwards -/

/-- The loop back finds a restart point in front of the entry, if there is an entry. -/
theorem restartBefore_spec {it : BlockIter} (h : img.Over it) {i : Nat} (hpos : 0 < i)
    (hi : i ≤ img.items.length) {r : Nat} (hr : r < img.points.length) :
    ∃ (r' : Nat) (hr' : r' < img.points.length),
      it.restartBefore (img.offset i) r = some r' ∧ img.points[r'] < i := by
  have hbefore {r : Nat} (hr : r < img.points.length) :
      ¬ img.offset i ≤ it.getRestartPoint r ↔ img.points[r] < i := by
    rw [getRestartPoint_eq hsmall h hr, Nat.not_le,
      img.offset_lt_iff (img.point_le (List.getElem_mem hr)) hi]
  induction r with
  | zero =>
    have hzero := img.first_point hr
    refine ⟨0, hr, ?_, by omega⟩
    rw [BlockIter.restartBefore, if_neg ((hbefore hr).mpr (by omega))]
  | succ r ih =>
    rw [BlockIter.restartBefore]
    split
    next => exact ih (Nat.lt_of_succ_lt hr)
    next hstop => exact ⟨r + 1, hr, rfl, (hbefore hr).mp hstop⟩

omit hsmall in
theorem restartBefore_zero {it : BlockIter} (r : Nat) : it.restartBefore 0 r = none := by
  induction r with
  | zero => rw [BlockIter.restartBefore, if_pos (Nat.zero_le _)]
  | succ r ih => rw [BlockIter.restartBefore, if_pos (Nat.zero_le _), ih]

theorem StandsOn.prev {it : BlockIter} {i : Nat} (h : img.StandsOn it i) :
    img.Position it.prev (if i = 0 then img.items.length else i - 1) := by
  rw [BlockIter.prev, h.current]
  cases i with
  | zero =>
    rw [img.offset_zero, restartBefore_zero, if_pos rfl]
    exact .inr ⟨rfl, ⟨h.data, h.restarts, h.numRestarts, h.status⟩, rfl⟩
  | succ i =>
    obtain ⟨p, hp, -⟩ := h.point
    obtain ⟨hr, -⟩ := List.getElem?_eq_some_iff.mp hp
    obtain ⟨r, hr', hbefore, hlt⟩ :=
      restartBefore_spec hsmall h.toOver (Nat.succ_pos i) h.lt.le hr
    rw [hbefore, if_neg (Nat.succ_ne_zero i)]
    exact .inl ((ready_restartPoint hsmall h.toOver hr').parseUntil hsmall hlt h.lt.le)

/-! ## The search for a target -/

section Seek
variable {cmp : Bytes → Bytes → Ordering} {target : Bytes}

open Cursor (lowerBound)

theorem Ready.seekLinear {it : BlockIter} {i : Nat} (h : img.Ready it i)
    (hle : i ≤ lowerBound cmp target img.entries) :
    img.Position (it.seekLinear cmp target) (lowerBound cmp target img.entries) := by
  have hbound : lowerBound cmp target img.entries ≤ img.items.length :=
    Cursor.lowerBound_le.trans_eq length_entries
  induction hk : img.items.length - i generalizing it i with
  | zero =>
    have hend : i = img.items.length := by
      have := h.le
      omega
    subst hend
    obtain ⟨it', hparse, hatEnd⟩ := h.parse_end
    rw [BlockIter.seekLinear_of_false hparse]
    exact .inr ⟨by omega, hatEnd⟩
  | succ k ih =>
    have hi : i < img.items.length := by omega
    obtain ⟨it', hparse, hstands⟩ := h.parse hsmall hi
    have hi' : i < img.entries.length := by rwa [length_entries]
    have hkey : it'.key = img.entries[i].1 := by rw [hstands.key, getElem_entries hi hi']
    rw [BlockIter.seekLinear_of_true hparse, hkey]
    rcases Nat.lt_or_eq_of_le hle with hlt | hat
    · rw [if_pos (Cursor.lt_of_lt_lowerBound hlt hi')]
      exact ih hstands.ready hlt (by omega)
    · subst hat
      rw [if_neg (Cursor.not_lt_lowerBound hi')]
      exact .inl hstands

/-- The key at a restart point is read whole. -/
theorem decodeEntry_restart {it : BlockIter} (h : img.Over it) {r : Nat} (hpos : 0 < r)
    (hr : r < img.points.length) :
    ∃ (head : EntryHead) (hp : img.points[r] < img.items.length),
      decodeEntry (it.bytesFrom (it.getRestartPoint r)) = some head ∧ head.shared = 0 ∧
        head.p.take head.nonShared.toNat = img.items[img.points[r]].key := by
  have hmem := List.getElem_mem hr
  have hzero := img.first_point img.points_pos
  have hbehind := List.pairwise_iff_getElem.mp img.increasing 0 r img.points_pos hr hpos
  have hp : img.points[r] < img.items.length := by
    rcases img.inside _ hmem with hfirst | hinside
    · omega
    · exact hinside
  have hwhole := img.whole _ hmem hp
  obtain ⟨-, hnonShared, -⟩ := lengths_fit hsmall hp
  rw [getRestartPoint_eq hsmall h hr, decodeEntry_offset hsmall h hp]
  refine ⟨_, hp, rfl, ?_, ?_⟩
  · rw [hwhole]
    rfl
  · show ((img.items[img.points[r]].payload ++ _).take _) = _
    rw [hnonShared, BlockEntry.payload, hwhole, List.append_assoc, List.drop_zero, Nat.sub_zero,
      List.take_left' rfl]

/-- The binary search ends at a restart point that is not behind the target's position. -/
theorem searchRestarts_spec [Std.TransCmp cmp] (hsorted : Cursor.Sorted cmp img.entries)
    {it : BlockIter} (h : img.Over it) {left right : Nat} (hright : right < img.points.length)
    (hleft : ∃ p, img.points[left]? = some p ∧ p ≤ lowerBound cmp target img.entries) :
    ∃ r, it.searchRestarts cmp target left right = some r ∧
      ∃ p, img.points[r]? = some p ∧ p ≤ lowerBound cmp target img.entries := by
  induction hk : right - left using Nat.strong_induction_on generalizing left right with
  | h k ih =>
    rw [BlockIter.searchRestarts]
    split
    next hgo =>
      have hmid : (left + right + 1) / 2 < img.points.length := by omega
      obtain ⟨head, hp, hdecode, hshared, hkey⟩ := decodeEntry_restart hsmall h (by omega) hmid
      have hp' : img.points[(left + right + 1) / 2] < img.entries.length := by
        rwa [length_entries]
      dsimp only
      rw [hdecode]
      dsimp only
      rw [if_neg (not_not.mpr hshared), hkey]
      split
      next hlt =>
        refine ih (right - (left + right + 1) / 2) (by omega) hright ?_ rfl
        have hfront : img.points[(left + right + 1) / 2] < lowerBound cmp target img.entries := by
          rw [Cursor.lt_lowerBound_iff hsorted hp', getElem_entries hp hp']
          exact hlt
        exact ⟨_, List.getElem?_eq_getElem hmid, hfront.le⟩
      next => exact ih ((left + right + 1) / 2 - 1 - left) (by omega) (by omega) hleft rfl
    next => exact ⟨left, rfl, hleft⟩

theorem position_seekBetween [Std.TransCmp cmp] (hsorted : Cursor.Sorted cmp img.entries)
    {it : BlockIter} (h : img.Over it) {left right : Nat} (hright : right < img.points.length)
    (hleft : ∃ p, img.points[left]? = some p ∧ p ≤ lowerBound cmp target img.entries)
    {ahead : Bool} (hahead : ahead = true →
      ∃ i, img.StandsOn it i ∧ i < lowerBound cmp target img.entries) :
    img.Position (it.seekBetween cmp target left right ahead)
      (lowerBound cmp target img.entries) := by
  obtain ⟨r, hsearch, p, hp, hle⟩ := searchRestarts_spec hsmall hsorted h hright hleft
  obtain ⟨hr, rfl⟩ := List.getElem?_eq_some_iff.mp hp
  rw [BlockIter.seekBetween, hsearch]
  dsimp only
  split
  next hskip =>
    obtain ⟨i, hstands, hlt⟩ := hahead hskip.2
    exact hstands.ready.seekLinear hsmall hlt
  next => exact (ready_restartPoint hsmall h hr).seekLinear hsmall hle

theorem Position.seek [Std.TransCmp cmp] (hsorted : Cursor.Sorted cmp img.entries)
    {it : BlockIter} {i : Nat} (h : img.Position it i) (target : Bytes) :
    img.Position (it.seek cmp target) (lowerBound cmp target img.entries) := by
  have hpos := img.points_pos
  have hfirst : ∃ p, img.points[0]? = some p ∧ p ≤ lowerBound cmp target img.entries :=
    ⟨0, img.first, Nat.zero_le _⟩
  have hlast : it.numRestarts - 1 < img.points.length := by
    rw [h.over.numRestarts]
    omega
  rw [BlockIter.seek]
  split
  next hvalid =>
    have hi := h.valid_iff.mp hvalid
    have hstands := h.standsOn hi
    have hi' : i < img.entries.length := by rwa [length_entries]
    have hkey : it.key = img.entries[i].1 := by rw [hstands.key, getElem_entries hi hi']
    obtain ⟨p, hp, hle⟩ := hstands.point
    obtain ⟨hr, -⟩ := List.getElem?_eq_some_iff.mp hp
    split
    next hlt =>
      rw [hkey, ← Cursor.lt_lowerBound_iff hsorted hi'] at hlt
      exact position_seekBetween hsmall hsorted h.over hlast ⟨p, hp, hle.trans hlt.le⟩
        fun _ => ⟨i, hstands, hlt⟩
    next => exact position_seekBetween hsmall hsorted h.over hr hfirst (by simp)
    next heq =>
      rw [hkey] at heq
      rw [Cursor.lowerBound_of_eq hsorted hi' heq]
      exact h
  next => exact position_seekBetween hsmall hsorted h.over hlast hfirst (by simp)

end Seek

end Small

end BlockImage

/-! ## The iterators of a block -/

namespace BlockIterator

def ops (cmp : Bytes → Bytes → Ordering) : Cursor.Operations BlockIterator Bytes Bytes Bytes where
  valid
    | .iter it => it.valid
    | _ => false
  key
    | .iter it => it.key
    | _ => []
  value
    | .iter it => it.value
    | _ => []
  status
    | .error status => some status
    | .empty => none
    | .iter it => it.status
  seekToFirst
    | .iter it => .iter it.seekToFirst
    | it => it
  seekToLast
    | .iter it => .iter it.seekToLast
    | it => it
  seek target
    | .iter it => .iter (it.seek cmp target)
    | it => it
  next
    | .iter it => .iter it.next
    | it => it
  prev
    | .iter it => .iter it.prev
    | it => it

/-- An iterator of the block at a position. -/
inductive Stands (img : BlockImage) : BlockIterator → Nat → Prop
  | iter {it : BlockIter} {i : Nat} (h : img.Position it i) : Stands img (.iter it) i

theorem simulates {img : BlockImage} (hsmall : img.bytes.length < 2 ^ 32)
    (cmp : Bytes → Bytes → Ordering) : Cursor.Simulates (ops cmp) img.entries (Stands img) where
  le := by
    rintro _ i ⟨h⟩
    rw [BlockImage.length_entries]
    exact h.le
  valid := by
    rintro _ i ⟨h⟩
    rw [BlockImage.length_entries]
    exact h.valid_iff
  entry := by
    rintro _ i ⟨h⟩ hi
    have hi' : i < img.items.length := by rwa [BlockImage.length_entries] at hi
    have hstands := h.standsOn hi'
    rw [BlockImage.getElem_entries hi' hi, ← hstands.key, ← hstands.value]
    rfl
  status := by
    rintro _ i ⟨h⟩
    exact h.over.status
  seekToFirst := by
    rintro _ i ⟨h⟩
    exact ⟨BlockImage.position_seekToFirst hsmall h.over⟩
  seekToLast := by
    rintro _ i ⟨h⟩
    rw [BlockImage.length_entries]
    exact ⟨BlockImage.position_seekToLast hsmall h.over⟩
  next := by
    rintro _ i ⟨h⟩ hi
    rw [BlockImage.length_entries] at hi
    exact ⟨BlockImage.position_parse hsmall (h.standsOn hi).ready⟩
  prev := by
    rintro _ i ⟨h⟩ hi
    rw [BlockImage.length_entries] at hi ⊢
    exact ⟨(h.standsOn hi).prev hsmall⟩

theorem seeks {img : BlockImage} (hsmall : img.bytes.length < 2 ^ 32)
    {cmp : Bytes → Bytes → Ordering} [Std.TransCmp cmp]
    (hsorted : Cursor.Sorted cmp img.entries) :
    Cursor.Seeks (ops cmp) cmp img.entries (Stands img) := by
  rintro target _ i ⟨h⟩
  exact ⟨h.seek hsmall hsorted target⟩

end BlockIterator

/-- The constructor accepts a well-formed block. -/
theorem BlockImage.ofContents_bytes {img : BlockImage} (hsmall : img.bytes.length < 2 ^ 32) :
    Block.ofContents img.bytes =
      { data := img.bytes, size := img.bytes.length,
        restartOffset := img.offset img.items.length } := by
  have hlen := img.length_bytes
  have hcount := img.numRestarts_bytes hsmall
  rw [Block.ofContents]
  dsimp only
  rw [if_neg (by omega), hcount, if_neg (by omega)]
  congr 1
  omega

/-- The iterator of a well-formed block is not valid at first. -/
theorem BlockImage.newIterator {img : BlockImage} (hsmall : img.bytes.length < 2 ^ 32) :
    (BlockIterator.Stands img) (Block.ofContents img.bytes).newIterator img.items.length := by
  have hlen := img.length_bytes
  have hcount := img.numRestarts_bytes hsmall
  have hpos := img.points_pos
  have hiter : (Block.ofContents img.bytes).newIterator =
      .iter (.ofBlock img.bytes (img.offset img.items.length) img.points.length) := by
    rw [BlockImage.ofContents_bytes hsmall, Block.newIterator]
    dsimp only
    rw [if_neg (by omega), hcount, if_neg (by omega)]
  rw [hiter]
  exact ⟨.inr ⟨rfl, ⟨rfl, rfl, rfl, rfl⟩, rfl⟩⟩

/-- The bytes of a block determine its entries. -/
theorem BlockImage.entries_of_bytes {img img' : BlockImage} (hsmall : img.bytes.length < 2 ^ 32)
    (h : img.bytes = img'.bytes) : img.entries = img'.entries := by
  have hscan {img : BlockImage} (hsmall : img.bytes.length < 2 ^ 32) {fuel : Nat}
      (hfuel : img.entries.length ≤ fuel) :
      (Cursor.scan (BlockIterator.ops compare) fuel ((BlockIterator.ops compare).seekToFirst
        (Block.ofContents img.bytes).newIterator)).1 = img.entries :=
    ((BlockIterator.simulates hsmall compare).scan_eq
      ((BlockIterator.simulates hsmall compare).seekToFirst (BlockImage.newIterator hsmall))
      (by omega)).1
  rw [← hscan hsmall (Nat.le_max_left img.entries.length img'.entries.length), h]
  exact hscan (h ▸ hsmall) (Nat.le_max_right _ _)

/-- Over a block with sorted entries the iterator follows every sequence of moves, wherever the
restart points are. -/
theorem block_moves {cmp : Bytes → Bytes → Ordering} [Std.TransCmp cmp] {b : BlockBuilder}
    (hinterval : 1 ≤ b.blockRestartInterval) {entries : List (Bytes × Bytes)}
    (hsorted : Cursor.Sorted cmp entries)
    (hsmall : (b.reset.addAll entries).finish.length < 2 ^ 32)
    (moves : List (Cursor.Move Bytes)) :
    (BlockIterator.ops cmp).current? (moves.foldl (BlockIterator.ops cmp).move
        (Block.ofContents (b.reset.addAll entries).finish).newIterator) =
      entries[moves.foldl (Cursor.moveTo cmp entries) entries.length]? ∧
    (BlockIterator.ops cmp).status (moves.foldl (BlockIterator.ops cmp).move
      (Block.ofContents (b.reset.addAll entries).finish).newIterator) = none := by
  obtain ⟨img, rfl, hbytes⟩ := b.exists_image hinterval entries
  rw [hbytes] at hsmall ⊢
  have hsim := BlockIterator.simulates hsmall cmp
  have hstart := BlockImage.newIterator hsmall
  rw [← BlockImage.length_entries] at hstart
  have hstands := hsim.moves (BlockIterator.seeks hsmall hsorted) hstart moves
  exact ⟨hsim.current?_eq hstands, hsim.status hstands⟩

/-- Three entries with a restart point at every second one: back from the third, across the
restart point. -/
theorem block_moves_restart :
    (BlockIterator.ops compare).current? ([.seek [2], .prev].foldl (BlockIterator.ops compare).move
        (Block.ofContents ((BlockBuilder.mk 2 [] [0] 0 []).reset.addAll
          [([1], [7]), ([1, 1], [8]), ([2], [9])]).finish).newIterator) = some ([1, 1], [8]) ∧
    (BlockIterator.ops compare).status ([.seek [2], .prev].foldl (BlockIterator.ops compare).move
      (Block.ofContents ((BlockBuilder.mk 2 [] [0] 0 []).reset.addAll
        [([1], [7]), ([1, 1], [8]), ([2], [9])]).finish).newIterator) = none := by
  have hsorted : Cursor.Sorted (compare : Bytes → Bytes → Ordering)
      [([1], [7]), ([1, 1], [8]), ([2], ([9] : Bytes))] := by
    unfold Cursor.Sorted
    decide +kernel
  exact block_moves (by decide) hsorted (by decide +kernel) [.seek [2], .prev]

end BloomHierarchy
