import BloomHierarchy.BlockFormat

/-!
# Reading a block (`table/block`)

`Block` and its iterator, over any bytes: a length that does not fit, a key that
shares more than there is, or a restart point in a wrong place end in the status
`bad entry in block`. Every loop of the iterator ends, because an entry takes at
least one byte.

Results:
1. `BlockIter.parseNextKey_advances`: an entry that is read lies behind the one
   before it, in any bytes;
2. `BlockImage.fixed32At_restart`, `BlockImage.numRestarts_bytes`: what the
   iterator reads of the restart points of a well-formed block.

What the iterator does over a well-formed block is in `BloomHierarchy.BlockCursor`.
-/

namespace BloomHierarchy

/-! ## The block -/

structure Block where
  data : Bytes
  size : Nat
  restartOffset : Nat
deriving Repr, DecidableEq

namespace Block

def numRestarts (data : Bytes) (size : Nat) : Nat :=
  fixed32At data (size - 4)

/-- The constructor; the size `0` is its error marker. -/
def ofContents (contents : Bytes) : Block :=
  let size := contents.length
  if size < 4 then { data := contents, size := 0, restartOffset := 0 }
  else
    let maxRestartsAllowed := (size - 4) / 4
    if numRestarts contents size > maxRestartsAllowed then
      { data := contents, size := 0, restartOffset := 0 }
    else
      { data := contents, size, restartOffset := size - (1 + numRestarts contents size) * 4 }

end Block

/-! ## The iterator -/

/-- `Block::Iter`. The slice of the value is an offset into the data and a size. -/
structure BlockIter where
  data : Bytes
  restarts : Nat
  numRestarts : Nat
  current : Nat
  restartIndex : Nat
  key : Bytes := []
  valueOffset : Nat := 0
  valueSize : Nat := 0
  status : Option Bytes := none
deriving Repr, DecidableEq

namespace BlockIter

def ofBlock (data : Bytes) (restarts numRestarts : Nat) : BlockIter :=
  { data, restarts, numRestarts, current := restarts, restartIndex := numRestarts }

def valid (it : BlockIter) : Bool :=
  it.current < it.restarts

def value (it : BlockIter) : Bytes :=
  (it.data.drop it.valueOffset).take it.valueSize

def nextEntryOffset (it : BlockIter) : Nat :=
  it.valueOffset + it.valueSize

def getRestartPoint (it : BlockIter) (index : Nat) : Nat :=
  fixed32At it.data (it.restarts + index * 4)

def seekToRestartPoint (it : BlockIter) (index : Nat) : BlockIter :=
  { it with
    key := []
    restartIndex := index
    valueOffset := it.getRestartPoint index
    valueSize := 0 }

def corruptionError (it : BlockIter) : BlockIter :=
  { it with
    current := it.restarts
    restartIndex := it.numRestarts
    status := some (corruption "bad entry in block")
    key := []
    valueOffset := 0
    valueSize := 0 }

/-- The bytes from an offset to the restart points. -/
def bytesFrom (it : BlockIter) (offset : Nat) : Bytes :=
  (it.data.take it.restarts).drop offset

/-- The loop that moves `restart_index_` up to the entry that was just read. -/
def advanceRestartIndex (it : BlockIter) (index : Nat) : Nat :=
  if index + 1 < it.numRestarts ∧ it.getRestartPoint (index + 1) < it.current then
    it.advanceRestartIndex (index + 1)
  else index
termination_by it.numRestarts - index

/-- Reads the entry at the end of the current value; `false` if there is none or it is bad. -/
def parseNextKey (it : BlockIter) : BlockIter × Bool :=
  let it := { it with current := it.nextEntryOffset }
  if it.restarts ≤ it.current then
    ({ it with current := it.restarts, restartIndex := it.numRestarts }, false)
  else
    match decodeEntry (it.bytesFrom it.current) with
    | none => (it.corruptionError, false)
    | some head =>
      if it.key.length < head.shared.toNat then (it.corruptionError, false)
      else
        -- the key begins where the bytes left to the restart points begin
        let p := it.restarts - head.p.length
        let it :=
          { it with
            key := it.key.take head.shared.toNat ++ head.p.take head.nonShared.toNat
            valueOffset := p + head.nonShared.toNat
            valueSize := head.valueLength.toNat }
        ({ it with restartIndex := it.advanceRestartIndex it.restartIndex }, true)

/-- An entry that was read lies behind the one before it. -/
theorem parseNextKey_advances {it it' : BlockIter} (h : it.parseNextKey = (it', true)) :
    it'.restarts = it.restarts ∧ it.nextEntryOffset < it.restarts ∧
      it.nextEntryOffset < it'.nextEntryOffset := by
  unfold parseNextKey at h
  dsimp only at h
  split at h
  · cases h
  next hinside =>
    split at h
    · cases h
    next head hhead =>
      split at h
      · cases h
      · have hread := length_lt_of_decodeEntry hhead
        have hleft : (bytesFrom { it with current := it.nextEntryOffset }
            it.nextEntryOffset).length ≤ it.restarts - it.nextEntryOffset := by
          simp only [bytesFrom, List.length_drop, List.length_take]
          omega
        cases h
        refine ⟨rfl, by omega, ?_⟩
        show it.nextEntryOffset < it.restarts - head.p.length + head.nonShared.toNat +
          head.valueLength.toNat
        omega

theorem parseNextKey_decreases {it it' : BlockIter} (h : it.parseNextKey = (it', true)) :
    it'.restarts - it'.nextEntryOffset < it.restarts - it.nextEntryOffset := by
  obtain ⟨hsame, hinside, hbehind⟩ := parseNextKey_advances h
  omega

/-- `do .. while (ParseNextKey() && NextEntryOffset() < bound)`. -/
def parseUntil (bound : Nat) (it : BlockIter) : BlockIter :=
  match _h : it.parseNextKey with
  | (it', false) => it'
  | (it', true) => if it'.nextEntryOffset < bound then parseUntil bound it' else it'
termination_by it.restarts - it.nextEntryOffset
decreasing_by exact parseNextKey_decreases _h

theorem parseUntil_of_false {bound : Nat} {it it' : BlockIter}
    (h : it.parseNextKey = (it', false)) : parseUntil bound it = it' := by
  rw [parseUntil]
  split <;> simp_all

theorem parseUntil_of_true {bound : Nat} {it it' : BlockIter}
    (h : it.parseNextKey = (it', true)) :
    parseUntil bound it =
      if it'.nextEntryOffset < bound then parseUntil bound it' else it' := by
  rw [parseUntil]
  split <;> simp_all

def next (it : BlockIter) : BlockIter :=
  it.parseNextKey.1

/-- The loop back to a restart point before `original`; `none` if the first one is not. -/
def restartBefore (it : BlockIter) (original : Nat) : Nat → Option Nat
  | 0 => if original ≤ it.getRestartPoint 0 then none else some 0
  | index + 1 =>
    if original ≤ it.getRestartPoint (index + 1) then it.restartBefore original index
    else some (index + 1)

def prev (it : BlockIter) : BlockIter :=
  let original := it.current
  match it.restartBefore original it.restartIndex with
  | none => { it with current := it.restarts, restartIndex := it.numRestarts }
  | some index => parseUntil original (it.seekToRestartPoint index)

def seekToFirst (it : BlockIter) : BlockIter :=
  (it.seekToRestartPoint 0).parseNextKey.1

def seekToLast (it : BlockIter) : BlockIter :=
  parseUntil it.restarts (it.seekToRestartPoint (it.numRestarts - 1))

/-- The binary search for the last restart point with a key below the target. -/
def searchRestarts (cmp : Bytes → Bytes → Ordering) (target : Bytes) (it : BlockIter)
    (left right : Nat) : Option Nat :=
  if left < right then
    let mid := (left + right + 1) / 2
    match decodeEntry (it.bytesFrom (it.getRestartPoint mid)) with
    | none => none
    | some head =>
      if head.shared ≠ 0 then none
      else if cmp (head.p.take head.nonShared.toNat) target = .lt then
        searchRestarts cmp target it mid right
      else searchRestarts cmp target it left (mid - 1)
  else some left
termination_by right - left

/-- The linear search for the first key that is not below the target. -/
def seekLinear (cmp : Bytes → Bytes → Ordering) (target : Bytes) (it : BlockIter) : BlockIter :=
  match _h : it.parseNextKey with
  | (it', false) => it'
  | (it', true) => if cmp it'.key target = .lt then seekLinear cmp target it' else it'
termination_by it.restarts - it.nextEntryOffset
decreasing_by exact parseNextKey_decreases _h

section
variable {cmp : Bytes → Bytes → Ordering} {target : Bytes} {it it' : BlockIter}

theorem seekLinear_of_false (h : it.parseNextKey = (it', false)) :
    seekLinear cmp target it = it' := by
  rw [seekLinear]
  split <;> simp_all

theorem seekLinear_of_true (h : it.parseNextKey = (it', true)) :
    seekLinear cmp target it =
      if cmp it'.key target = .lt then seekLinear cmp target it' else it' := by
  rw [seekLinear]
  split <;> simp_all

end

/-- Both searches; `ahead` if the target is behind the current key. -/
def seekBetween (cmp : Bytes → Bytes → Ordering) (target : Bytes) (it : BlockIter)
    (left right : Nat) (ahead : Bool) : BlockIter :=
  match it.searchRestarts cmp target left right with
  | none => it.corruptionError
  | some left =>
    let skipSeek := left = it.restartIndex ∧ ahead
    seekLinear cmp target (if skipSeek then it else it.seekToRestartPoint left)

def seek (cmp : Bytes → Bytes → Ordering) (target : Bytes) (it : BlockIter) : BlockIter :=
  if it.valid then
    -- the current position is a starting point of the search
    match cmp it.key target with
    | .lt => it.seekBetween cmp target it.restartIndex (it.numRestarts - 1) true
    | .gt => it.seekBetween cmp target 0 it.restartIndex false
    | .eq => it
  else it.seekBetween cmp target 0 (it.numRestarts - 1) false

end BlockIter

/-! ## The iterators of a block -/

/-- What `Block::NewIterator` returns: besides `Block::Iter` the iterators without entries
of `table/iterator`. -/
inductive BlockIterator
  | error (status : Bytes)
  | empty
  | iter (it : BlockIter)
deriving Repr, DecidableEq

def Block.newIterator (b : Block) : BlockIterator :=
  if b.size < 4 then .error (corruption "bad block contents")
  else if numRestarts b.data b.size = 0 then .empty
  else .iter (.ofBlock b.data b.restartOffset (numRestarts b.data b.size))

/-! ## Where things stand in a well-formed block -/

theorem encodeAll_take_append_drop (items : List BlockEntry) (i : Nat) :
    encodeAll items = encodeAll (items.take i) ++ encodeAll (items.drop i) := by
  rw [encodeAll, encodeAll, encodeAll, ← List.flatMap_append, List.take_append_drop]

theorem encodeAll_drop {items : List BlockEntry} {i : Nat} (hi : i < items.length) :
    encodeAll (items.drop i) = items[i].encode ++ encodeAll (items.drop (i + 1)) := by
  rw [List.drop_eq_getElem_cons hi]
  rfl

namespace BlockImage

variable (img : BlockImage)

theorem offset_length : img.offset img.items.length = (encodeAll img.items).length := by
  rw [offset, offsetOf, List.take_length]

theorem offset_zero : img.offset 0 = 0 := rfl

theorem offset_succ {i : Nat} (hi : i < img.items.length) :
    img.offset (i + 1) = img.offset i + img.items[i].encode.length := by
  rw [offset, offset, offsetOf, offsetOf, List.take_succ_eq_append_getElem hi,
    BlockBuilder.encodeAll_append, List.length_append]

theorem offset_lt {i j : Nat} (hij : i < j) (hj : j ≤ img.items.length) :
    img.offset i < img.offset j := by
  induction j with
  | zero => omega
  | succ j ih =>
    have hstep := img.offset_succ hj
    have hpos := BlockEntry.three_le_length_encode img.items[j]
    rcases Nat.lt_succ_iff_lt_or_eq.mp hij with h | rfl
    · have := ih h (by omega)
      omega
    · omega

/-- No entry is without bytes. -/
theorem le_offset {i : Nat} (hi : i ≤ img.items.length) : i ≤ img.offset i := by
  induction i with
  | zero => exact Nat.zero_le _
  | succ i ih =>
    exact Nat.lt_of_le_of_lt (ih (Nat.le_of_succ_le hi)) (img.offset_lt i.lt_succ_self hi)

theorem offset_le {i j : Nat} (hij : i ≤ j) (hj : j ≤ img.items.length) :
    img.offset i ≤ img.offset j := by
  rcases Nat.lt_or_eq_of_le hij with h | rfl
  · exact (img.offset_lt h hj).le
  · exact Nat.le_refl _

theorem offset_lt_iff {i j : Nat} (hi : i ≤ img.items.length) (hj : j ≤ img.items.length) :
    img.offset i < img.offset j ↔ i < j := by
  refine ⟨fun h => ?_, fun h => img.offset_lt h hj⟩
  by_contra hle
  have := img.offset_le (Nat.le_of_not_lt hle) hi
  omega

theorem length_bytes :
    img.bytes.length = img.offset img.items.length + (img.points.length * 4 + 4) := by
  rw [bytes, List.length_append, List.length_append, length_flatMap_encodeFixed32,
    length_encodeFixed32, offset_length, restarts, List.length_map]

theorem take_bytes : img.bytes.take (img.offset img.items.length) = encodeAll img.items := by
  rw [offset_length, bytes, List.take_left]

theorem drop_entries {i : Nat} :
    (encodeAll img.items).drop (img.offset i) = encodeAll (img.items.drop i) := by
  rw [encodeAll_take_append_drop img.items i, offset, offsetOf, List.drop_left]

theorem point_le {p : Nat} (hp : p ∈ img.points) : p ≤ img.items.length := by
  rcases img.inside p hp with rfl | h
  · exact Nat.zero_le _
  · exact h.le

theorem points_pos : 0 < img.points.length := by
  have h := img.first
  cases hpoints : img.points with
  | nil => simp [hpoints] at h
  | cons p points => simp

section Small
variable {img} (hsmall : img.bytes.length < 2 ^ 32)
include hsmall

theorem fixed32At_restart {r : Nat} (hr : r < img.points.length) :
    fixed32At img.bytes (img.offset img.items.length + r * 4) = img.offset img.points[r] := by
  have hle : img.offset img.points[r] ≤ img.offset img.items.length :=
    img.offset_le (img.point_le (List.getElem_mem hr)) (Nat.le_refl _)
  have hfits : img.offset img.points[r] < 2 ^ 32 := by
    have := img.length_bytes
    omega
  have hr' : r < img.restarts.length := by
    rw [restarts, List.length_map]
    exact hr
  have hget : img.restarts[r] = UInt32.ofNat (img.offset img.points[r]) := by
    simp [restarts]
  rw [bytes, offset_length, fixed32At_append hr', hget, UInt32.toNat_ofNat_of_lt' hfits]

theorem numRestarts_bytes : Block.numRestarts img.bytes img.bytes.length = img.points.length := by
  have hlen := img.length_bytes
  have hfits : img.points.length < 2 ^ 32 := by omega
  have hcut : img.bytes.length - 4 =
      (encodeAll img.items ++ img.restarts.flatMap encodeFixed32).length := by
    rw [List.length_append, length_flatMap_encodeFixed32, ← img.offset_length, restarts,
      List.length_map]
    omega
  rw [Block.numRestarts, fixed32At, hcut, bytes, ← List.append_assoc, List.drop_left,
    List.take_of_length_le (Nat.le_of_eq (length_encodeFixed32 _)), decodeFixed32_encodeFixed32,
    UInt32.toNat_ofNat_of_lt' hfits]

end Small

end BlockImage

end BloomHierarchy
